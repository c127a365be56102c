import VersionedTrees.Proofs.Buffer.Insert
import VersionedTrees.Proofs.Store.Reachable

/-!
# A change buffer refines a copy of its base

A run of insertions, updates, deletions and resets without tree-references is followed by a copy of
the base that makes the same edits, with the content of the target in place of each node-reference.
Edits of buffer and copy end alike (`SameOutcome`), and after each of them both are read alike. The
simulation relation is `Follows`: the changes of the buffer are sound and intact, and what they show
is the layout of the copy.
-/

namespace VersionedTrees

variable {C : Type}

/-- Two edits succeed with the same value or fail for reasons of the same kind. -/
inductive SameOutcome {α : Type} : Except TreeError α → Except TreeError α → Prop where
  | ok (value : α) : SameOutcome (.ok value) (.ok value)
  | error {left right : TreeError} (sameKind : left.kind = right.kind) :
      SameOutcome (.error left) (.error right)

/-- A payload that a copy of the base can follow: content, or the content of a base node. -/
def Store.Lends (base : Store C) : Payload C → Prop
  | .content _ => True
  | .nodeReference reference =>
    reference.tree = base.id ∧ base.contains reference.key = true
  | .treeReference _ => False

theorem Store.Lends.not_isTreeReference {base : Store C} {payload : Payload C}
    (lends : base.Lends payload) : payload.isTreeReference = false := by
  cases payload with
  | content _ => rfl
  | nodeReference _ => rfl
  | treeReference _ => exact lends.elim

theorem Store.Lends.stored {base : Store C} {payload : Payload C} (lends : base.Lends payload)
    (explicit : Option Key) : (Buffer.checkInsertedReference explicit payload).result = .ok () := by
  cases payload with
  | content _ => rfl
  | nodeReference _ => rfl
  | treeReference _ => exact lends.elim

theorem Store.Lends.admits {base : Store C} {payload : Payload C} (lends : base.Lends payload)
    (key : Key) : base.Admits key payload := by
  cases payload with
  | content _ => exact trivial
  | nodeReference _ => exact ⟨lends.1, Store.contains_iff_holds.mp lends.2⟩
  | treeReference _ => exact lends.elim

namespace Buffer

/-- A buffer over a base that shows what a copy of the base holds after the same edits. -/
def Follows (base : Store C) (buffer : Buffer C) (copy : Store C) : Prop :=
  ∃ changes, buffer.Records base changes ∧ changes.Sound base ∧ changes.Intact base ∧
    copy.WellFormed ∧ copy.layout = changes.shown base

/-- Two edits end alike and leave a buffer and its copy. -/
structure Agree {α : Type} (base : Store C) (left : Except TreeError α × Buffer C)
    (right : Except TreeError α × Store C) : Prop where
  outcome : SameOutcome left.1 right.1
  follows : Follows base left.2 right.2

section Following

variable {base copy next : Store C} {changes : Changes C} {buffer after : Buffer C}
  {key parent : Key} {payload : Payload C} {standing : Standing C}

theorem Agree.map {α β : Type} {change : α → β} {left : Except TreeError α × Buffer C}
    {right : Except TreeError α × Store C} (agree : Agree base left right) :
    Agree base (left.1.map change, left.2) (right.1.map change, right.2) := by
  refine ⟨?_, agree.follows⟩
  obtain ⟨result, after⟩ := left
  obtain ⟨result', after'⟩ := right
  cases agree.outcome with
  | ok value => exact .ok _
  | error sameKind => exact .error sameKind

/-- Unfolding a buffer is not seen by the copy. -/
theorem Unfolded.follows {next : Changes C} (unfolded : Unfolded base changes after next)
    (intact : changes.Intact base) (wellFormed : copy.WellFormed)
    (layout_eq : copy.layout = changes.shown base) : Follows base after copy :=
  ⟨next, unfolded.records, unfolded.sound, unfolded.intact intact, wellFormed,
    layout_eq.trans unfolded.shown_eq.symm⟩

/-- Both sides place a node. -/
theorem agree_place {next : Store C} {α : Type} (value : α) (wellFormed : base.WellFormed)
    (sound : changes.Sound base) (intact : changes.Intact base)
    (fits : changes.Fits base key standing)
    (records : after.Records base (changes.place key standing))
    (layout_eq : copy.layout = changes.shown base)
    (becomes : copy.Becomes
      (copy.layout.place key ⟨standing.parent, base.lend standing.payload⟩) next) :
    Agree base (.ok value, after) (.ok value, next) := by
  refine ⟨.ok value, _, records, sound.place wellFormed fits records.isTree_overlay,
    intact.place fits, becomes.wellFormed, ?_⟩
  rw [becomes.layout_eq, layout_eq, Changes.shown_place]

/-! ## Updates and deletions -/

/-- A buffer and its copy update a node alike. -/
theorem Follows.update (follows : Follows base buffer copy) (wellFormed : base.WellFormed)
    (allContent : base.AllContent) (lends : base.Lends payload) (key : Key) :
    Agree base ((update key payload).effect buffer)
      ((Edit.attempt (·.update key (base.lend payload))).effect copy) := by
  obtain ⟨changes, records, sound, intact, copyFormed, layout_eq⟩ := follows
  have checked := result_checkPayload records (lends.admits key).resolves
  have stored : (checkUpdatedReference key payload).result = .ok () := by
    cases payload with
    | content _ => rfl
    | nodeReference _ => rfl
    | treeReference _ => exact lends.elim
  have start : (Buffer.update key payload).effect buffer =
      (do reach key; Edit.when (!payload.isTreeReference) (expandLazy key)
          updateOverlay key payload
          Edit.when payload.isTreeReference (restore key)).effect buffer := by
    rw [Buffer.update, Edit.effect_current_bind]
    exact (Edit.effect_liftM_bind checked).trans (Edit.effect_liftM_bind stored)
  rw [Edit.effect_attempt]
  cases shown : changes.shown base key with
  | none =>
      rw [start, Edit.effect_bind_of_error (effect_reach_of_absent records shown),
        Store.update_of_absent (by rw [layout_eq, shown])]
      exact ⟨.error rfl, changes, records, sound, intact, copyFormed, layout_eq⟩
  | some standing =>
      obtain ⟨first, middle, reached, unfolded, inside⟩ :=
        unfolds_reach records sound wellFormed allContent ⟨standing, shown⟩
      obtain ⟨second, last, expanded, unfolded', notLazy⟩ :=
        unfolds_expandLazy unfolded.records unfolded.sound wellFormed allContent key
      have unfolded := unfolded.trans unfolded'
      obtain ⟨⟨above, old⟩, found⟩ := unfolded'.holds key inside
      obtain ⟨after, updated, records'⟩ := unfolded.records.updateOverlay found payload
      have here : copy.layout key = some ⟨above, base.lend old⟩ := by
        rw [layout_eq, ← unfolded.shown_eq, Changes.shown_of_overlay found]
      obtain ⟨next, ok, becomes⟩ := copyFormed.update here (base.lend payload)
      have fits : last.Fits base key ⟨above, payload⟩ := by
        refine ⟨lends.admits key, lends.not_isTreeReference, ?_, .inl ⟨⟨_, found⟩, notLazy⟩,
          nonempty_of_holds ⟨_, found⟩⟩
        rintro parent ⟨⟩ isLazy
        exact unfolded.sound.leaf parent key isLazy ⟨old, found⟩
      have ended : (Buffer.update key payload).effect buffer = (.ok (), after) := by
        rw [start, lends.not_isTreeReference, Edit.effect_bind_of_ok reached]
        exact (Edit.effect_bind_of_ok expanded).trans (Edit.effect_bind_of_ok updated)
      rw [ended, ok]
      exact agree_place () wellFormed unfolded.sound (unfolded.intact intact) fits records'
        (layout_eq.trans unfolded.shown_eq.symm) becomes

/-- A buffer and its copy delete a subtree alike. -/
theorem Follows.delete (follows : Follows base buffer copy) (wellFormed : base.WellFormed)
    (allContent : base.AllContent) (key : Key) :
    Agree base ((delete key).effect buffer)
      ((Edit.attempt (·.delete key)).effect copy) := by
  obtain ⟨changes, records, sound, intact, copyFormed, layout_eq⟩ := follows
  rw [Edit.effect_attempt]
  cases shown : changes.shown base key with
  | none =>
      rw [Buffer.delete, Edit.effect_bind_of_error (effect_reach_of_absent records shown),
        Store.delete_of_absent (by rw [layout_eq, shown])]
      exact ⟨.error rfl, changes, records, sound, intact, copyFormed, layout_eq⟩
  | some standing =>
      obtain ⟨middle, last, reached, unfolded, inside⟩ :=
        unfolds_reach records sound wellFormed allContent ⟨standing, shown⟩
      obtain ⟨after, removed, records'⟩ :=
        unfolded.records.removeOverlaySubtree wellFormed unfolded.sound.admits inside
      have here : copy.layout.Holds key := by
        rw [layout_eq]
        exact ⟨standing, shown⟩
      obtain ⟨next, ok, becomes⟩ := copyFormed.delete here
      rw [Buffer.delete, Edit.effect_bind_of_ok reached, removed, ok]
      refine ⟨.ok (), _, records', unfolded.sound.remove wellFormed.isTree key,
        (unfolded.intact intact).remove wellFormed.isTree key, becomes.wellFormed, ?_⟩
      rw [becomes.layout_eq, layout_eq, ← unfolded.shown_eq,
        unfolded.sound.shown_remove wellFormed.isTree (unfolded.intact intact) inside]

/-! ## Insertions -/

/-- The preparation of an insertion under a key that the caller chooses. -/
theorem exists_prepared {parent : Option Key} {placement : Placement} {first : Buffer C}
    {middle : Changes C} (wellFormed : base.WellFormed) (allContent : base.AllContent)
    (records : buffer.Records base changes) (lends : base.Lends payload)
    (chosen : explicitKey parent placement = some key)
    (prepared : (prepareParent parent).effect buffer = (.ok (), first))
    (unfolded : Unfolded base changes first middle) :
    ∃ existed third last, (insert parent placement payload).effect buffer =
        (placeNode parent placement payload existed).effect third ∧
      Unfolded base middle third last ∧
      (last.overlay.Holds key ∧ ¬ last.IsLazy key ∨ last.shown base key = none) ∧
      (existed = false → last.shown base key = none) := by
  obtain ⟨existed, second, third, last, moved, expanded, unfolded', there, -⟩ :=
    unfolds_moved unfolded.records unfolded.sound wellFormed allContent key
  rw [← unfolded'.shown_eq] at there
  have fresh : existed = false → last.shown base key = none := by
    rintro rfl
    exact there.elim (fun moved => nomatch moved.1) And.right
  refine ⟨existed, third, last, ?_, unfolded', there.imp And.right And.right, fresh⟩
  refine effect_insert (result_checkPayload records (lends.admits key).resolves) (lends.stored _) prepared
    (chosen ▸ moved) ?_
  rw [lends.not_isTreeReference, chosen, Bool.not_false, Bool.and_true]
  exact expanded

theorem effect_ofFunction_insert (copy : Store C) (parent : Option Key) (placement : Placement)
    (payload : Payload C) :
    (Edit.ofFunction (·.insert parent placement payload) : Edit (Store C) Key).effect copy =
      copy.insert parent placement payload := rfl

/-- Below a key that is not shown, a buffer and its copy refuse an insertion alike. -/
theorem Follows.insert_of_absent (follows : Follows base buffer copy) (lends : base.Lends payload)
    (absent : copy.layout parent = none) (placement : Placement) :
    Agree base ((insert (some parent) placement payload).effect buffer)
      ((Edit.ofFunction (·.insert (some parent) placement (base.lend payload))).effect copy) := by
  have copied := follows
  obtain ⟨changes, records, -, -, -, layout_eq⟩ := follows
  rw [layout_eq] at absent
  rw [effect_insert_of_error (result_checkPayload records (lends.admits parent).resolves)
      (lends.stored _) (effect_prepareParent_of_absent records absent), effect_ofFunction_insert,
    Store.insert_of_absent (by rw [layout_eq, absent])]
  exact ⟨.error rfl, copied⟩

/-- The root that is shown is in the overlay, if that is empty only when nothing is shown. -/
theorem isRoot_overlay_of_shown (sound : changes.Sound base) (isTree : base.layout.IsTree)
    (nonempty : (∀ key, changes.overlay key = none) → ∀ key, changes.shown base key = none)
    (isRoot : (changes.shown base).IsRoot key) : changes.overlay.IsRoot key := by
  have present : ∃ other, changes.overlay.Holds other := by
    by_contra absent
    have nothing := nonempty fun other => Layout.not_holds_iff.mp fun holds => absent ⟨other, holds⟩
    exact Layout.holds_iff_ne_none.mp isRoot.holds (nothing key)
  obtain ⟨other, holds⟩ := present
  obtain ⟨top, isTop, -⟩ := sound.isTree.exists_root holds
  have isTop' : (changes.shown base).IsRoot top :=
    (Changes.isRoot_shown_of_overlay isTop.holds).mpr isTop
  rwa [(sound.isTree_shown isTree).single key top isRoot isTop']

/-- Below an overlay node with content, overlay and copy have the same children. -/
theorem childList_eq_of_follows (wellFormed : base.WellFormed) (allContent : base.AllContent)
    (records : buffer.Records base changes) (sound : changes.Sound base)
    (copyFormed : copy.WellFormed) (layout_eq : copy.layout = changes.shown base)
    (holds : changes.overlay.Holds parent) (notLazy : ¬ changes.IsLazy parent) :
    buffer.overlay.tree.childList parent = copy.tree.childList parent := by
  have listed := copyFormed.listed
  rw [layout_eq] at listed
  rw [← childList_of_overlay sound.admits records holds notLazy,
    (records.shows allContent wellFormed sound).listed.unique listed]

/-- A new node whose key the base shows elsewhere is taken out again. -/
theorem exists_takenBack (records : buffer.Records base changes)
    (holds : changes.overlay.Holds parent) (shown : (changes.shown base).Holds key)
    (absent : changes.overlay key = none) {placement : Placement}
    (placed : (insertOverlay (some parent) placement payload).effect buffer = (.ok key, after))
    (records' : after.Records base (changes.place key ⟨some parent, payload⟩))
    (notReference : payload.isTreeReference = false) :
    ∃ last, (placeNode (some parent) placement payload false).effect buffer =
        (.error (.shape (.generatedTaken key)), last) ∧ last.Records base changes := by
  have inside : (changes.place key ⟨some parent, payload⟩).overlay.Holds key :=
    ⟨_, Layout.place_self _ _ _⟩
  obtain ⟨last, deleted, records''⟩ := records'.deleteOverlay inside
  have undone : (changes.place key ⟨some parent, payload⟩).prune key = changes :=
    Changes.ext (records.isTree_overlay.prune_place absent holds) rfl
  rw [undone] at records''
  refine ⟨last, ?_, records''⟩
  obtain ⟨-, kept, there⟩ := (Changes.holds_shown_cases shown).resolve_left
    fun holds => Layout.holds_iff_ne_none.mp holds absent
  have contains : (after.backingTree.contains key).result = .ok true := by
    rw [records'.backingTree]
    exact congrArg Except.ok (Store.contains_iff_holds.mpr there)
  have notDeleted : after.deleted.contains key = false := by
    rw [← Bool.not_eq_true, records'.contains_deleted]
    exact kept
  have rejected : (rejectTakenKey key false).effect after =
      (.error (.shape (.generatedTaken key)), last) := by
    rw [rejectTakenKey, Edit.effect_current_bind]
    refine (Edit.effect_liftM_bind contains).trans ?_
    rw [Edit.effect_when, notDeleted]
    exact (Edit.effect_bind_of_ok deleted).trans rfl
  rw [placeNode, Edit.effect_bind_of_ok placed, notReference]
  exact Edit.effect_bind_of_error rejected

/-- A key that is free among siblings and that the overlay does not have is placed there, whatever the
base shows. -/
theorem Records.insertOverlay_automatic (records : buffer.Records base changes)
    (holds : changes.overlay.Holds parent) {position chosen : PathKey}
    (positioned : parent.position? = some position) {place : Place}
    (free : Store.freePosition parent position (buffer.overlay.siblings parent position) place =
      .ok chosen) (absent : changes.overlay (.path chosen) = none) (payload : Payload C) :
    ∃ after, (insertOverlay (some parent) (.automatic place) payload).effect buffer =
        (.ok (.path chosen), after) ∧
      after.Records base (changes.place (.path chosen) ⟨some parent, payload⟩) := by
  rw [← records.overlay] at holds absent
  obtain ⟨next, ok, becomes⟩ := records.wellFormed.putBelow_of_new holds absent payload
  have overlaid := Store.insert_automatic holds positioned place payload
  rw [free] at overlaid
  simp only [Store.contains_eq_false_iff.mpr absent, if_neg Bool.false_ne_true, ok] at overlaid
  refine ⟨{ buffer with overlay := next }, by rw [effect_insertOverlay, overlaid], ?_⟩
  rw [Changes.place, ← records.overlay]
  exact records.withOverlay becomes

section Placing

variable (wellFormed : base.WellFormed) (records : buffer.Records base changes)
  (sound : changes.Sound base) (intact : changes.Intact base) (copyFormed : copy.WellFormed)
  (layout_eq : copy.layout = changes.shown base) (lends : base.Lends payload)

include wellFormed records sound intact copyFormed layout_eq lends

/-- If the overlay is empty only when nothing is shown, a buffer and its copy put a root in place alike. -/
theorem agree_placeNode_root {placement : Placement} {existed : Bool}
    (nonempty : (∀ key, changes.overlay key = none) → ∀ key, changes.shown base key = none)
    (there : changes.overlay.Holds placement.rootKey ∧ ¬ changes.IsLazy placement.rootKey ∨
      changes.shown base placement.rootKey = none)
    (fresh : existed = false → changes.shown base placement.rootKey = none) :
    Agree base ((placeNode none placement payload existed).effect buffer)
      ((Edit.ofFunction (·.insert none placement (base.lend payload))).effect copy) := by
  have isTree := sound.isTree_shown wellFormed.isTree
  have fits : changes.Fits base placement.rootKey ⟨none, payload⟩ :=
    ⟨lends.admits _, lends.not_isTreeReference, nofun, there, nonempty⟩
  rw [effect_ofFunction_insert, Store.insert_root]
  by_cases rooted : ∃ root, (changes.shown base).IsRoot root
  · obtain ⟨root, isRoot⟩ := rooted
    have isRootOverlay := isRoot_overlay_of_shown sound wellFormed.isTree nonempty isRoot
    have isRootCopy : copy.layout.IsRoot root := by rwa [layout_eq]
    by_cases same : root = placement.rootKey
    · subst same
      obtain ⟨after, placed, records'⟩ := records.insertOverlay_sameRoot isRootOverlay payload
      obtain ⟨next, ok, becomes⟩ := copyFormed.putRoot_of_root isRootCopy (base.lend payload)
      rw [effect_placeNode placed records' lends.not_isTreeReference fresh, ok]
      exact agree_place _ wellFormed sound intact fits records' layout_eq becomes
    · rw [effect_placeNode_of_error
          (records.effect_insertOverlay_secondRoot isRootOverlay same payload),
        copyFormed.putRoot_of_other isRootCopy same]
      exact ⟨.error rfl, changes, records, sound, intact, copyFormed, layout_eq⟩
  · have nothing : ∀ key, changes.shown base key = none := by
      intro key
      rw [← Layout.not_holds_iff]
      intro holds
      obtain ⟨root, isRoot, -⟩ := isTree.exists_root holds
      exact rooted ⟨root, isRoot⟩
    have emptyOverlay : ∀ key, changes.overlay key = none :=
      fun key => (Changes.shown_eq_none_iff.mp (nothing key)).1
    have emptyCopy : copy.root = none := copyFormed.root_eq_none fun key => by
      rw [layout_eq, nothing]
    obtain ⟨after, placed, records'⟩ := records.insertOverlay_root emptyOverlay placement payload
    obtain ⟨next, ok, becomes⟩ :=
      copyFormed.putRoot_of_empty emptyCopy placement.rootKey (base.lend payload)
    rw [effect_placeNode placed records' lends.not_isTreeReference fresh, ok]
    exact agree_place _ wellFormed sound intact fits records' layout_eq becomes

/-- With the parent in the overlay, and a key there as well unless it is not shown, a buffer and its copy
put a node under the key alike. -/
theorem agree_placeNode_exactly {existed : Bool} (inside : changes.overlay.Holds parent)
    (notLazy : ¬ changes.IsLazy parent)
    (there : changes.overlay.Holds key ∧ ¬ changes.IsLazy key ∨ changes.shown base key = none)
    (fresh : existed = false → changes.shown base key = none) :
    Agree base ((placeNode (some parent) (.exactly key) payload existed).effect buffer)
      ((Edit.ofFunction (·.insert (some parent) (.exactly key) (base.lend payload))).effect
        copy) := by
  have insideCopy : copy.layout.Holds parent := by
    rw [layout_eq]
    exact Changes.holds_shown_of_overlay inside
  have fits : changes.Fits base key ⟨some parent, payload⟩ := by
    refine ⟨lends.admits key, lends.not_isTreeReference, ?_, there, nonempty_of_holds inside⟩
    rintro _ ⟨⟩
    exact notLazy
  have follows : Follows base buffer copy := ⟨changes, records, sound, intact, copyFormed, layout_eq⟩
  rw [effect_ofFunction_insert, Store.insert_exactly insideCopy]
  cases old : changes.shown base key with
  | none =>
      obtain ⟨absent, -⟩ := Changes.shown_eq_none_iff.mp old
      obtain ⟨after, placed, records'⟩ := records.insertOverlay_new inside absent payload
      obtain ⟨next, ok, becomes⟩ :=
        copyFormed.putBelow_of_new insideCopy (by rw [layout_eq, old]) (base.lend payload)
      rw [effect_placeNode placed records' lends.not_isTreeReference fresh, ok]
      exact agree_place _ wellFormed sound intact fits records' layout_eq becomes
  | some standing =>
      -- what is shown under the key has come into the overlay
      have holds : changes.overlay.Holds key :=
        (there.resolve_right fun gone => nomatch old.symm.trans gone).1
      rcases holds.isRoot_or_isChild with isRoot | ⟨previous, isChild⟩
      · have isRootCopy : copy.layout.IsRoot key := by
          rwa [layout_eq, Changes.isRoot_shown_of_overlay holds]
        rw [effect_placeNode_of_error
            (records.effect_insertOverlay_rootBelow isRoot inside payload),
          Store.putBelow_of_root isRootCopy]
        exact ⟨.error rfl, follows⟩
      · have isChildCopy : copy.layout.IsChild key previous := by
          rwa [layout_eq, Changes.isChild_shown_of_overlay holds]
        have within_iff : copy.layout.Within key parent ↔ changes.overlay.Within key parent := by
          rw [layout_eq, sound.within_shown_iff inside]
        by_cases within : changes.overlay.Within key parent
        · rw [effect_placeNode_of_error
              (records.effect_insertOverlay_belowItself isChild within payload),
            copyFormed.putBelow_of_within isChildCopy (within_iff.mpr within)]
          exact ⟨.error rfl, follows⟩
        · obtain ⟨after, placed, records'⟩ :=
            records.insertOverlay_moved isChild inside within payload
          obtain ⟨next, ok, becomes⟩ := copyFormed.putBelow_of_outside isChildCopy insideCopy
            (fun within' => within (within_iff.mp within')) (base.lend payload)
          rw [effect_placeNode placed records' lends.not_isTreeReference fresh, ok]
          exact agree_place _ wellFormed sound intact fits records' layout_eq becomes

/-- Below a parent in the overlay, a buffer and its copy put a node under the position that is free at a
place alike. -/
theorem agree_placeNode_automatic (allContent : base.AllContent)
    (inside : changes.overlay.Holds parent) (notLazy : ¬ changes.IsLazy parent)
    {position : PathKey} (positioned : parent.position? = some position) (place : Place) :
    Agree base ((placeNode (some parent) (.automatic place) payload false).effect buffer)
      ((Edit.ofFunction (·.insert (some parent) (.automatic place) (base.lend payload))).effect
        copy) := by
  have insideCopy : copy.layout.Holds parent := by
    rw [layout_eq]
    exact Changes.holds_shown_of_overlay inside
  have insideOverlay : buffer.overlay.layout.Holds parent := by
    rwa [records.overlay]
  have follows : Follows base buffer copy := ⟨changes, records, sound, intact, copyFormed, layout_eq⟩
  have siblings : buffer.overlay.siblings parent position = copy.siblings parent position := by
    rw [Store.siblings_eq, Store.siblings_eq, childList_eq_of_follows wellFormed allContent
      records sound copyFormed layout_eq inside notLazy]
  have overlaid := Store.insert_automatic insideOverlay positioned place payload
  rw [siblings] at overlaid
  rw [effect_ofFunction_insert, Store.insert_automatic insideCopy positioned]
  cases free : Store.freePosition parent position (copy.siblings parent position) place with
  | error error =>
      rw [free] at overlaid
      rw [effect_placeNode_of_error (by rw [effect_insertOverlay, overlaid])]
      exact ⟨.error rfl, follows⟩
  | ok chosen =>
      rw [free] at overlaid
      simp only at overlaid ⊢
      have placed := fun absent =>
        records.insertOverlay_automatic inside positioned (siblings ▸ free) absent payload
      cases old : changes.shown base (.path chosen) with
      | some standing =>
          have taken : copy.contains (.path chosen) = true := by
            rw [Store.contains_iff_holds, layout_eq]
            exact ⟨standing, old⟩
          rw [taken, if_pos rfl]
          cases found : changes.overlay (.path chosen) with
          | some standing =>
              have held : buffer.overlay.contains (.path chosen) = true :=
                records.contains_overlay.mpr ⟨standing, found⟩
              rw [held, if_pos rfl] at overlaid
              rw [effect_placeNode_of_error (by rw [effect_insertOverlay, overlaid])]
              exact ⟨.error rfl, follows⟩
          | none =>
              -- the overlay takes the node, and it is taken out again
              obtain ⟨after, inserted, records'⟩ := placed found
              obtain ⟨taken, failed, records''⟩ := exists_takenBack records inside
                ⟨standing, old⟩ found inserted records' lends.not_isTreeReference
              rw [failed]
              exact ⟨.error rfl, changes, records'', sound, intact, copyFormed, layout_eq⟩
      | none =>
          obtain ⟨after, inserted, records'⟩ := placed (Changes.shown_eq_none_iff.mp old).1
          have absentCopy : copy.layout (.path chosen) = none := by rw [layout_eq, old]
          obtain ⟨next, ok, becomes⟩ :=
            copyFormed.putBelow_of_new insideCopy absentCopy (base.lend payload)
          have fits : changes.Fits base (.path chosen) ⟨some parent, payload⟩ := by
            refine ⟨lends.admits _, lends.not_isTreeReference, ?_, .inr old, nonempty_of_holds inside⟩
            rintro _ ⟨⟩
            exact notLazy
          rw [effect_placeNode inserted records' lends.not_isTreeReference fun _ => old,
            Store.contains_eq_false_iff.mpr absentCopy, if_neg Bool.false_ne_true, ok]
          exact agree_place _ wellFormed sound intact fits records' layout_eq becomes

end Placing

/-- A buffer and its copy insert a root alike. -/
theorem Follows.insert_root (follows : Follows base buffer copy) (wellFormed : base.WellFormed)
    (allContent : base.AllContent) (lends : base.Lends payload) (placement : Placement) :
    Agree base ((insert none placement payload).effect buffer)
      ((Edit.ofFunction (·.insert none placement (base.lend payload))).effect copy) := by
  obtain ⟨changes, records, sound, intact, copyFormed, layout_eq⟩ := follows
  obtain ⟨first, middle, seeded, unfolded, empty⟩ := unfolds_seed records sound wellFormed
  have chosen : explicitKey none placement = some placement.rootKey := by cases placement <;> rfl
  obtain ⟨existed, third, last, inserted, unfolded', there, fresh⟩ :=
    exists_prepared wellFormed allContent records lends chosen seeded unfolded
  have nonempty := unfolded'.nonempty (unfolded.shown_eq ▸ empty)
  have unfolded := unfolded.trans unfolded'
  rw [inserted]
  exact agree_placeNode_root wellFormed unfolded.records unfolded.sound (unfolded.intact intact)
    copyFormed (layout_eq.trans unfolded.shown_eq.symm) lends nonempty there fresh

/-- A buffer and its copy insert a node under a key that the caller chooses alike. -/
theorem Follows.insert_exactly (follows : Follows base buffer copy) (wellFormed : base.WellFormed)
    (allContent : base.AllContent) (lends : base.Lends payload) (parent key : Key) :
    Agree base ((insert (some parent) (.exactly key) payload).effect buffer)
      ((Edit.ofFunction (·.insert (some parent) (.exactly key) (base.lend payload))).effect
        copy) := by
  have copied := follows
  obtain ⟨changes, records, sound, intact, copyFormed, layout_eq⟩ := follows
  cases shown : changes.shown base parent with
  | none => exact copied.insert_of_absent lends (by rw [layout_eq, shown]) _
  | some standing =>
      obtain ⟨first, middle, prepared, unfolded, inside, notLazy, -⟩ :=
        unfolds_prepareParent records sound wellFormed allContent ⟨standing, shown⟩
      have chosen : explicitKey (some parent) (.exactly key) = some key := rfl
      obtain ⟨existed, third, last, inserted, unfolded', there, fresh⟩ :=
        exists_prepared wellFormed allContent records lends chosen prepared unfolded
      have notLazy := unfolded'.not_isLazy inside notLazy
      have inside := unfolded'.holds parent inside
      have unfolded := unfolded.trans unfolded'
      rw [inserted]
      exact agree_placeNode_exactly wellFormed unfolded.records unfolded.sound
        (unfolded.intact intact) copyFormed (layout_eq.trans unfolded.shown_eq.symm) lends inside
        notLazy there fresh

/-- A buffer and its copy insert a node at a place among siblings with positions alike. -/
theorem Follows.insert_automatic (follows : Follows base buffer copy)
    (wellFormed : base.WellFormed) (allContent : base.AllContent) (lends : base.Lends payload)
    {parent : Key} {position : PathKey} (positioned : parent.position? = some position)
    (place : Place) :
    Agree base ((insert (some parent) (.automatic place) payload).effect buffer)
      ((Edit.ofFunction (·.insert (some parent) (.automatic place) (base.lend payload))).effect
        copy) := by
  have copied := follows
  obtain ⟨changes, records, sound, intact, copyFormed, layout_eq⟩ := follows
  have checked := result_checkPayload records (lends.admits parent).resolves
  cases shown : changes.shown base parent with
  | none => exact copied.insert_of_absent lends (by rw [layout_eq, shown]) _
  | some standing =>
      obtain ⟨middle, last, prepared, unfolded, inside, notLazy, -⟩ :=
        unfolds_prepareParent records sound wellFormed allContent ⟨standing, shown⟩
      have inserted : (insert (some parent) (.automatic place) payload).effect buffer =
          (placeNode (some parent) (.automatic place) payload false).effect middle :=
        effect_insert checked (lends.stored _) prepared rfl rfl
      rw [inserted]
      exact agree_placeNode_automatic wellFormed unfolded.records unfolded.sound
        (unfolded.intact intact) copyFormed (layout_eq.trans unfolded.shown_eq.symm) lends allContent
        inside notLazy positioned place

end Following

end Buffer

/-! ## Runs -/

/-- The edits of a buffer that a copy of its base can follow. -/
inductive PlainEdit (C : Type) where
  | insert (parent : Option Key) (placement : Placement) (payload : Payload C)
  | update (key : Key) (payload : Payload C)
  | delete (key : Key)
  | reset

namespace PlainEdit

/-- Edits a buffer. An insertion tells a key. -/
def onBuffer : PlainEdit C → Edit (Buffer C) (Option Key)
  | .insert parent placement payload => some <$> Buffer.insert parent placement payload
  | .update key payload => (fun _ => none) <$> Buffer.update key payload
  | .delete key => (fun _ => none) <$> Buffer.delete key
  | .reset => (fun _ => none) <$> Buffer.reset

/-- Edits a copy of the base in the same way, with content in place of node-references. A reset
starts again from the base. -/
def onCopy (base : Store C) : PlainEdit C → Edit (Store C) (Option Key)
  | .insert parent placement payload =>
    some <$> Edit.ofFunction (·.insert parent placement (base.lend payload))
  | .update key payload => (fun _ => none) <$> Edit.attempt (·.update key (base.lend payload))
  | .delete key => (fun _ => none) <$> Edit.attempt (·.delete key)
  | .reset => (fun _ => none) <$> Edit.modify fun _ => base

/-- Payloads are content or node-references to base nodes, and the place of a new node among its
siblings is left to the tree only below a parent with a position. -/
def Allowed (base : Store C) : PlainEdit C → Prop
  | .insert parent placement payload =>
    base.Lends payload ∧
      ∀ key place, parent = some key → placement = .automatic place → key.position?.isSome = true
  | .update _ payload => base.Lends payload
  | .delete _ | .reset => True

end PlainEdit

/-- A buffer and a copy of its base after the same run of edits, from a buffer without changes or a
seeded one. The edits may succeed or fail. -/
inductive Tracks (base : Store C) : Buffer C → Store C → Prop where
  | fresh (settings : ViewSettings) (trap : Option Trap) :
      Tracks base (Buffer.unchanged (.store base) settings trap) base
  | seeded (settings : ViewSettings) (trap : Option Trap) :
      Tracks base (Buffer.seed.effect (Buffer.unchanged (.store base) settings trap)).2 base
  | step {buffer : Buffer C} {copy : Store C} (tracks : Tracks base buffer copy)
      (edit : PlainEdit C) (allowed : edit.Allowed base) :
      Tracks base (edit.onBuffer.effect buffer).2 ((edit.onCopy base).effect copy).2

namespace Buffer

variable {base copy : Store C} {buffer : Buffer C}

/-- A buffer without changes is followed by its base. -/
theorem follows_unchanged (wellFormed : base.WellFormed) (settings : ViewSettings)
    (trap : Option Trap) : Follows base (unchanged (.store base) settings trap) base :=
  ⟨.untouched, records_unchanged base settings trap, Changes.sound_untouched, Changes.intact_untouched,
    wellFormed, (Changes.shown_untouched base).symm⟩

/-- A buffer and its copy make each edit alike. -/
theorem Follows.step (follows : Follows base buffer copy) (wellFormed : base.WellFormed)
    (allContent : base.AllContent) (edit : PlainEdit C) (allowed : edit.Allowed base) :
    Agree base (edit.onBuffer.effect buffer) ((edit.onCopy base).effect copy) := by
  cases edit with
  | insert parent placement payload =>
      obtain ⟨lends, positioned⟩ := allowed
      simp only [PlainEdit.onBuffer, PlainEdit.onCopy, Edit.effect_map]
      refine Agree.map ?_
      cases parent with
      | none => exact follows.insert_root wellFormed allContent lends placement
      | some parent =>
          cases placement with
          | exactly key => exact follows.insert_exactly wellFormed allContent lends parent key
          | automatic place =>
              obtain ⟨position, same⟩ :=
                Option.isSome_iff_exists.mp (positioned parent place rfl rfl)
              exact follows.insert_automatic wellFormed allContent lends same place
  | update key payload =>
      simp only [PlainEdit.onBuffer, PlainEdit.onCopy, Edit.effect_map]
      exact (follows.update wellFormed allContent allowed key).map
  | delete key =>
      simp only [PlainEdit.onBuffer, PlainEdit.onCopy, Edit.effect_map]
      exact (follows.delete wellFormed allContent key).map
  | reset =>
      obtain ⟨changes, records, -⟩ := follows
      refine ⟨.ok none, .untouched, records_reset records.backing, Changes.sound_untouched,
        Changes.intact_untouched, wellFormed,
        (Changes.shown_untouched base).symm⟩

/-- A buffer and the copy that tracks it are in the simulation relation. -/
theorem follows_of_tracks (wellFormed : base.WellFormed) (allContent : base.AllContent)
    (tracks : Tracks base buffer copy) : Follows base buffer copy := by
  induction tracks with
  | fresh settings trap => exact follows_unchanged wellFormed settings trap
  | seeded settings trap =>
      obtain ⟨after, next, seeded, unfolded, -⟩ :=
        unfolds_seed (records_unchanged base settings trap) Changes.sound_untouched wellFormed
      rw [seeded]
      exact unfolded.follows Changes.intact_untouched wellFormed (Changes.shown_untouched base).symm
  | step _ edit allowed inductionHypothesis =>
      exact (inductionHypothesis.step wellFormed allContent edit allowed).follows

/-- What follows a buffer is read like it. -/
theorem Follows.sameReads (follows : Follows base buffer copy) (wellFormed : base.WellFormed)
    (allContent : base.AllContent) : buffer.tree.SameReads copy.tree := by
  obtain ⟨changes, records, sound, -, copyFormed, layout_eq⟩ := follows
  have shows := copyFormed.shows
  rw [layout_eq] at shows
  exact (records.shows allContent wellFormed sound).sameReads shows

/-- A change buffer refines a copy of its base: after every run both are read alike, and the next
edit succeeds on both with the same key or fails on both for reasons of the same kind. -/
theorem refines_copy (reachable : base.Reachable) (allContent : base.AllContent)
    (tracks : Tracks base buffer copy) :
    buffer.tree.SameReads copy.tree ∧ ∀ edit : PlainEdit C, edit.Allowed base →
      SameOutcome (edit.onBuffer.effect buffer).1 ((edit.onCopy base).effect copy).1 := by
  have wellFormed := reachable.wellFormed
  have follows := follows_of_tracks wellFormed allContent tracks
  refine ⟨follows.sameReads wellFormed allContent, fun edit allowed => ?_⟩
  exact (follows.step wellFormed allContent edit allowed).outcome

/-- The leaf of a chain is moved below the root and lent the content of the node that it leaves; the
leaf can be deleted then. -/
theorem refines_copy_chain :
    let edit : PlainEdit String :=
      .insert (some (.number 1)) (.exactly (.number 3)) (.nodeReference ⟨⟨1⟩, .number 2⟩)
    let buffer := (edit.onBuffer.effect (unchanged (.store Store.chain))).2
    let copy := ((edit.onCopy Store.chain).effect Store.chain).2
    Store.chain.Reachable ∧ Store.chain.AllContent ∧ Tracks Store.chain buffer copy ∧
      buffer.tree.SameReads copy.tree ∧
      SameOutcome ((PlainEdit.delete (.number 3)).onBuffer.effect buffer).1
        (((PlainEdit.delete (.number 3)).onCopy Store.chain).effect copy).1 := by
  intro edit buffer copy
  have reachable := Store.reachable_ofEdits ⟨1⟩ Store.chainEdits
  have allowed : edit.Allowed Store.chain :=
    ⟨⟨rfl, by decide +kernel⟩, fun _ _ _ automatic => nomatch automatic⟩
  have tracks : Tracks Store.chain buffer copy := .step (.fresh {} none) edit allowed
  obtain ⟨sameReads, outcomes⟩ := refines_copy reachable Store.allContent_chain tracks
  exact ⟨reachable, Store.allContent_chain, tracks, sameReads, outcomes _ trivial⟩

end Buffer

end VersionedTrees
