import VersionedTrees.Proofs.Buffer.Grounded
import VersionedTrees.Proofs.Buffer.Rejected

/-!
# What a change buffer refers to

At any time the overlay of a buffer over a store with content alone is a tree. Its references point into
the store, a tree-reference at its own key, below which the overlay has nothing, and the deleted keys are
keys of the store (`Buffer.represents_of_anyRun`). This holds after edits that fail as well. Most steps of
an edit keep valid changes valid. The exceptions are that a tree-reference is put into the overlay before
what stands below it is taken out, and that an insertion relies on its parent not having become lazy since
it was prepared. For that the invariant carries the parent along (`Buffer.IsBacked`).
-/

namespace VersionedTrees

variable {C : Type}

namespace Changes

variable {base : Store C} {changes : Changes C} {key top : Key} {standing : Standing C}

/-- Valid changes in which only keys of the base are deleted. -/
structure Backed (base : Store C) (changes : Changes C) : Prop extends Valid base changes where
  deleted : ∀ key, changes.deleted key → base.layout.Holds key

theorem backed_untouched : (untouched : Changes C).Backed base where
  toValid := sound_untouched.toValid
  deleted _ := False.elim

/-- To list keys of the base as deleted keeps changes backed. -/
theorem Backed.hide {keys : Key → Prop} (backed : changes.Backed base)
    (inside : ∀ key, keys key → base.layout.Holds key) : (changes.hide keys).Backed base where
  isTree := backed.isTree
  admits := backed.admits
  leaf := backed.leaf
  deleted key listed := listed.elim (backed.deleted key) (inside key)

theorem Backed.prune (backed : changes.Backed base) (top : Key) : (changes.prune top).Backed base :=
  ⟨backed.toValid.prune top, backed.deleted⟩

/-- A stored node leaves backed changes. -/
theorem Backed.stored {final : Changes C} (backed : changes.Backed base)
    (stored : changes.Stored base key standing final) : final.Backed base where
  toValid := stored.valid
  deleted other gone := (stored.deleted other gone).elim (backed.deleted other) id

/-- A replacement lists keys of the base only. -/
theorem Valid.backed_conceal (valid : changes.Valid base) : (changes.conceal base).Backed base where
  isTree := valid.isTree
  admits := valid.admits
  leaf := valid.leaf
  deleted _ concealed := concealed.1

end Changes

namespace Buffer

variable {base : Store C} {changes : Changes C} {buffer after : Buffer C} {key above : Key}
  {parent : Option Key} {placement : Placement} {payload : Payload C}

/-- The changes of a buffer are backed, and a node may be put below a parent that is given. -/
def IsBacked (base : Store C) (parent : Option Key) (buffer : Buffer C) : Prop :=
  ∃ changes, buffer.Records base changes ∧ changes.Backed base ∧
    ∀ above, parent = some above → changes.Receives (some above)

theorem IsBacked.of_records (records : buffer.Records base changes) (backed : changes.Backed base) :
    IsBacked base none buffer :=
  ⟨changes, records, backed, nofun⟩

/-- Without a parent that is given, nothing is asked of it. -/
theorem IsBacked.close (held : IsBacked base parent buffer) : IsBacked base none buffer :=
  let ⟨_, records, backed, _⟩ := held
  .of_records records backed

section Steps

variable (wellFormed : base.WellFormed) (allContent : base.AllContent)

/-! ## Bringing nodes into the overlay -/

include wellFormed in
/-- The base root becomes lazy over an empty overlay only, where there is no parent to be given. -/
theorem keeps_seed_of_isBacked : Edit.Keeps (IsBacked base parent) (seed : Edit (Buffer C) Unit) := by
  rintro buffer ⟨changes, records, backed, receives⟩
  rcases records.effect_seed wellFormed with
    ⟨seeded, -⟩ | ⟨root, after, empty, isRoot, -, seeded, records'⟩
  · rw [seeded]
    exact ⟨changes, records, backed, receives⟩
  · rw [seeded]
    have valid := backed.toValid.place (empty root) (show changes.Receives none from empty)
      (show base.Admits root (.treeReference ⟨base.id, root⟩) from ⟨rfl, isRoot.holds⟩)
      records'.isTree_overlay
    refine ⟨_, records', ⟨valid, backed.deleted⟩, fun above given => ?_⟩
    exact absurd (empty above) (Layout.holds_iff_ne_none.mp (receives above given).1)

include wellFormed allContent in
/-- After an expansion the node may be given children, and all nodes that might be before. -/
theorem exists_expandLazy_of_backed (records : buffer.Records base changes)
    (backed : changes.Backed base) (key : Key) :
    ∃ after next, (expandLazy key).effect buffer = (.ok (), after) ∧ after.Records base next ∧
      next.Backed base ∧ ∀ other, changes.overlay.Holds other →
        (changes.IsLazy other → key = other) → next.Receives (some other) := by
  by_cases isLazy : changes.IsLazy key
  case neg =>
    refine ⟨buffer, changes, effect_expandLazy_of_not_isLazy records backed.admits isLazy, records,
      backed, fun other holds only => ⟨holds, fun isLazy' => isLazy ?_⟩⟩
    rwa [only isLazy']
  case pos =>
    obtain ⟨above, reference, found⟩ := isLazy
    obtain ⟨standing, there⟩ : base.layout.Holds key := (backed.admits key _ found).2
    obtain ⟨after, expanded, records'⟩ := records.expandLazy wellFormed backed.admits found there
    have valid := Changes.valid_expand wellFormed allContent found there backed.toValid
      records'.isTree_overlay
    refine ⟨after, _, expanded, records', ⟨valid, backed.deleted⟩, fun other holds only => ⟨?_, ?_⟩⟩
    · by_cases same : key = other
      · subst same
        exact ⟨_, Changes.overlay_expand_self wellFormed found⟩
      · obtain ⟨standing', found'⟩ := holds
        exact ⟨_, Changes.overlay_expand_of_found wellFormed found same found'⟩
    · intro isLazy
      obtain ⟨different, isLazy | ⟨absent, -⟩⟩ :=
        (Changes.readsBack_expand_iff wellFormed allContent found there).mp (.inl isLazy)
      · exact different (only isLazy)
      · exact Layout.holds_iff_ne_none.mp holds absent

include wellFormed allContent in
theorem unfolds_isBacked : Unfolds (IsBacked base parent) where
  seed := keeps_seed_of_isBacked wellFormed
  expandLazy key := by
    rintro buffer ⟨changes, records, backed, receives⟩
    obtain ⟨after, next, expanded, records', backed', opened⟩ :=
      exists_expandLazy_of_backed wellFormed allContent records backed key
    rw [expanded]
    refine ⟨next, records', backed', fun above given => ?_⟩
    exact opened above (receives above given).1 fun isLazy => absurd isLazy (receives above given).2

include wellFormed allContent in
/-- A parent that was prepared may be given children. -/
theorem isBacked_of_prepareParent (held : IsBacked base none buffer)
    (ok : (prepareParent parent).effect buffer = (.ok (), after)) : IsBacked base parent after := by
  have unfolds : Unfolds (IsBacked base none) := unfolds_isBacked wellFormed allContent
  cases parent with
  | none => exact unfolds.seed.of_ok held ok
  | some above =>
      obtain ⟨⟨⟩, middle, reached, ok⟩ := Edit.effect_bind_eq_ok ok
      obtain ⟨changes, records, backed, -⟩ := (unfolds.keeps_reach above).of_ok held reached
      have holds := records.contains_overlay.mp (contains_of_reach reached)
      obtain ⟨last, next, expanded, records', backed', opened⟩ :=
        exists_expandLazy_of_backed wellFormed allContent records backed above
      obtain rfl := Edit.after_unique expanded ok
      refine ⟨next, records', backed', ?_⟩
      rintro above ⟨⟩
      exact opened above holds fun _ => rfl

/-! ## Taking nodes out of the overlay -/

theorem keeps_deleteOverlay_of_isBacked (key : Key) :
    Edit.Keeps (IsBacked base none) (deleteOverlay key : Edit (Buffer C) Unit) := by
  rintro buffer ⟨changes, records, backed, -⟩
  by_cases holds : changes.overlay.Holds key
  · obtain ⟨after, deleted, records'⟩ := records.deleteOverlay holds
    rw [deleted]
    exact .of_records records' (backed.prune key)
  · have absent : buffer.overlay.layout key = none := by
      rw [records.overlay]
      exact Layout.not_holds_iff.mp holds
    rw [deleteOverlay, onOverlay, Edit.effect_onPart, Edit.effect_attempt, Store.delete_of_absent absent]
    exact .of_records records backed

include wellFormed in
theorem keeps_hideNode_of_isBacked (node : Key) :
    Edit.Keeps (IsBacked base none) (hideNode node : Edit (Buffer C) Unit) := by
  rintro buffer ⟨changes, records, backed, -⟩
  obtain ⟨after, hidden, records'⟩ := records.hideNode wellFormed backed.admits node
  rw [hidden]
  exact .of_records records' (backed.hide fun _ standsFor => standsFor.holds)

/-! ## Storing nodes -/

/-- A tree-reference takes the key of its target, whatever the base shows there. -/
theorem effect_rejectTakenKey_of_treeReference (records : buffer.Records base changes) (key : Key) :
    (rejectTakenKey key true).effect buffer = (.ok (), buffer) := by
  have contains : (buffer.backingTree.contains key).result = .ok (base.contains key) := by
    rw [records.backingTree]
    rfl
  rw [rejectTakenKey, Edit.effect_current_bind, Edit.effect_liftM_bind contains, Bool.not_true,
    Bool.and_false]
  rfl

include wellFormed in
/-- A node that may be put below its parent leaves backed changes, whether it is taken, refused or taken
out again. -/
theorem leads_placeNode (resolves : base.Resolves payload)
    (stored : (checkInsertedReference (explicitKey parent placement) payload).result = .ok ())
    (existed : Bool) : Edit.Leads (IsBacked base parent) (IsBacked base none)
      (placeNode parent placement payload existed) := by
  rintro buffer ⟨changes, records, backed, receives⟩
  cases inserted : (insertOverlay parent placement payload).effect buffer with
  | mk told middle =>
    cases told with
    | error refused =>
        rw [effect_placeNode_of_error inserted]
        exact .of_records (records.refused inserted) backed
    | ok key =>
        have records' := records.placed inserted
        have admits := admits_of_insertOverlay resolves stored inserted
        have below : ∀ above, parent = some above → ¬ changes.IsLazy above :=
          fun above given => (receives above given).2
        obtain ⟨after, final, finished, records'', stored'⟩ :=
          records'.stored wellFormed backed.toValid admits below
        rw [placeNode, Edit.effect_bind_of_ok inserted]
        cases kind : payload.isTreeReference with
        | true =>
            have passed : (Edit.when (!existed) (rejectTakenKey key true)).effect middle =
                (.ok (), middle) := by
              rw [Edit.effect_when, effect_rejectTakenKey_of_treeReference records' key, ite_self]
            rw [kind] at finished
            rw [Edit.effect_bind_of_ok passed, Edit.effect_bind_of_ok finished]
            exact .of_records records'' (backed.stored stored')
        | false =>
            have placed : IsBacked base none middle := by
              rw [stored'.plainly kind] at stored'
              exact .of_records records' (backed.stored stored')
            have rejects : Edit.Keeps (IsBacked base none)
                (Edit.when (!existed) (rejectTakenKey key false) : Edit (Buffer C) Unit) :=
              Edit.keeps_when (keeps_rejectTakenKey (keeps_deleteOverlay_of_isBacked key) false)
            exact (rejects.bind fun _ => Edit.keeps_pure key) middle placed

include wellFormed allContent in
theorem keeps_insert_of_isBacked (parent : Option Key) (placement : Placement) (payload : Payload C) :
    Edit.Keeps (IsBacked base none) (insert parent placement payload) := by
  refine Edit.keeps_bind_current fun buffer ⟨changes, records, _⟩ => ?_
  refine Edit.keeps_liftM_bind fun ⟨⟩ checked => Edit.keeps_liftM_bind fun ⟨⟩ stored => ?_
  have resolves := resolves_of_checkPayload records checked
  have unfolds : ∀ {parent : Option Key}, Unfolds (IsBacked base parent) :=
    unfolds_isBacked wellFormed allContent
  refine Edit.keeps_bind_of_leads (unfolds.keeps_prepareParent parent)
    (isBacked_of_prepareParent wellFormed allContent) fun _ => ?_
  refine (unfolds.keeps_prepareMoved _).bind_leads (fun _ => IsBacked.close) fun existed => ?_
  refine Edit.Keeps.bind_leads (Edit.keeps_when (Edit.keeps_forM unfolds.expandLazy _))
    (fun _ => IsBacked.close) fun _ => ?_
  exact leads_placeNode wellFormed resolves stored existed

include wellFormed in
/-- Below its parent a node may take a new payload, since no lazy node has children in the overlay. -/
theorem keeps_store_of_isBacked (admits : base.Admits key payload) :
    Edit.Keeps (IsBacked base none) (do
      updateOverlay key payload
      Edit.when payload.isTreeReference (restore key)) := by
  rintro buffer ⟨changes, records, backed, -⟩
  cases found : changes.overlay key with
  | none =>
      have absent : buffer.overlay.layout key = none := by rw [records.overlay, found]
      have refused : (updateOverlay key payload).effect buffer = (.error (.nodeNotFound key), buffer) := by
        rw [updateOverlay, onOverlay, Edit.effect_onPart, Edit.effect_attempt,
          Store.update_of_absent absent]
      rw [Edit.effect_bind_of_error refused]
      exact .of_records records backed
  | some standing =>
      obtain ⟨above, old⟩ := standing
      obtain ⟨middle, updated, records'⟩ := records.updateOverlay found payload
      have below : ∀ parent, above = some parent → ¬ changes.IsLazy parent := by
        rintro parent rfl isLazy
        exact backed.leaf parent key isLazy ⟨old, found⟩
      obtain ⟨after, final, finished, records'', stored⟩ :=
        records'.stored wellFormed backed.toValid admits below
      rw [Edit.effect_bind_of_ok updated, finished]
      exact .of_records records'' (backed.stored stored)

include wellFormed allContent in
theorem keeps_update_of_isBacked (key : Key) (payload : Payload C) :
    Edit.Keeps (IsBacked base none) (update key payload) := by
  refine Edit.keeps_bind_current fun buffer ⟨changes, records, _⟩ => ?_
  refine Edit.keeps_liftM_bind fun ⟨⟩ checked => Edit.keeps_liftM_bind fun ⟨⟩ stored => ?_
  have admits := admits_of_checkUpdatedReference (resolves_of_checkPayload records checked) stored
  have unfolds : Unfolds (IsBacked base none) := unfolds_isBacked wellFormed allContent
  refine (unfolds.keeps_reach key).bind fun _ => ?_
  exact (Edit.keeps_when (unfolds.expandLazy key)).bind fun _ => keeps_store_of_isBacked wellFormed admits

include wellFormed allContent in
theorem keeps_delete_of_isBacked (key : Key) :
    Edit.Keeps (IsBacked base none) (delete key : Edit (Buffer C) Unit) :=
  ((unfolds_isBacked wellFormed allContent).keeps_reach key).bind fun _ =>
    keeps_removeOverlaySubtree (keeps_hideNode_of_isBacked wellFormed)
      (keeps_deleteOverlay_of_isBacked key)

include allContent in
/-- The content of a target takes the place of a reference to it. -/
theorem keeps_copyTarget_of_isBacked (key : Key) :
    Edit.Keeps (IsBacked base none) (copyTarget key : Edit (Buffer C) Unit) := by
  rintro buffer ⟨changes, records, backed, -⟩
  obtain ⟨after, next, copied, records', ⟨rfl, -⟩ | ⟨above, value, -, rfl, fits⟩⟩ :=
    exists_copyTarget allContent records backed.toValid key
  · rw [copied]
    exact .of_records records' backed
  · rw [copied]
    exact .of_records records' ⟨backed.place_plain fits.admits fits.below fits.notReference
      records'.isTree_overlay, backed.deleted⟩

include wellFormed allContent in
/-- However a replacement ends, it leaves backed changes. -/
theorem isBacked_of_replace (backing : buffer.backing = .store base) (delta : Tree C) :
    IsBacked base none ((replace delta).effect buffer).2 := by
  have ended := replacedBy_replace backing wellFormed allContent delta
  generalize (replace delta).effect buffer = ending at ended ⊢
  cases ended with
  | taken valid unmixed records => exact .of_records records valid.backed_conceal
  | refused fills => exact .of_records fills.records ⟨fills.valid, fun _ gone => gone.elim⟩

end Steps

/-! ## Runs -/

/-- Every edit of a buffer over a store with content alone leaves backed changes, however it ends. -/
theorem IsBacked.edit (held : IsBacked base none buffer) (wellFormed : base.WellFormed)
    (allContent : base.AllContent) (edit : BufferEdit C) :
    IsBacked base none (edit.edit.effect buffer).2 := by
  have backing : buffer.backing = .store base :=
    let ⟨_, records, _⟩ := held
    records.backing
  have unfolds : Unfolds (IsBacked base none) := unfolds_isBacked wellFormed allContent
  cases edit with
  | insert parent placement payload =>
      exact (keeps_insert_of_isBacked wellFormed allContent parent placement payload).map buffer held
  | update key payload =>
      exact (keeps_update_of_isBacked wellFormed allContent key payload).map buffer held
  | delete key => exact (keeps_delete_of_isBacked wellFormed allContent key).map buffer held
  | expandAll key =>
      exact (unfolds.keeps_expandAll (keeps_copyTarget_of_isBacked allContent) key).map buffer held
  | replace delta =>
      rw [BufferEdit.edit, Edit.effect_map]
      exact isBacked_of_replace wellFormed allContent backing delta
  | applyDelta delta =>
      rw [BufferEdit.edit, Edit.effect_map]
      rcases effect_applyDelta delta buffer with ⟨-, replaced⟩ | ⟨-, error, refused⟩
      · rw [replaced]
        exact isBacked_of_replace wellFormed allContent backing delta.tree.tree
      · rw [refused]
        exact held
  | reset => exact .of_records (records_reset backing) Changes.backed_untouched

theorem isBacked_of_anyRun (wellFormed : base.WellFormed) (allContent : base.AllContent)
    (run : AnyRun base buffer) : IsBacked base none buffer := by
  have fresh : ∀ settings trap, IsBacked base none (unchanged (.store base) settings trap) :=
    fun settings trap => .of_records (records_unchanged base settings trap) Changes.backed_untouched
  induction run with
  | fresh settings trap => exact fresh settings trap
  | seeded settings trap => exact keeps_seed_of_isBacked wellFormed _ (fresh settings trap)
  | step _ edit inductionHypothesis => exact inductionHypothesis.edit wellFormed allContent edit

/-- A change buffer represents changes to a store. -/
structure Represents (base : Store C) (buffer : Buffer C) : Prop where
  backing : buffer.backing = .store base
  /-- The overlay is a tree. -/
  singleRooted : buffer.overlay.SingleRooted
  /-- A tree-reference points at its own key. -/
  own_target : ∀ key reference, buffer.overlay.payload? key = some (.treeReference reference) →
    reference = ⟨base.id, key⟩ ∧ base.contains key = true
  /-- A tree-reference is lazy, and has no children in the overlay. -/
  lazy_leaf : ∀ key reference, buffer.overlay.payload? key = some (.treeReference reference) →
    buffer.isLazy key = true ∧ (buffer.overlay.tree.children key).result = .ok []
  /-- A node-reference points at a node of the store. -/
  target : ∀ key reference, buffer.overlay.payload? key = some (.nodeReference reference) →
    reference.tree = base.id ∧ base.contains reference.key = true
  /-- Only keys of the store are deleted. -/
  deleted : ∀ key ∈ buffer.deleted, base.contains key = true

theorem IsBacked.represents (held : IsBacked base none buffer) : buffer.Represents base := by
  obtain ⟨changes, records, backed, -⟩ := held
  have shows := records.wellFormed.shows
  rw [records.overlay] at shows
  have standing : ∀ {key payload}, buffer.overlay.payload? key = some payload →
      ∃ above, changes.overlay key = some ⟨above, payload⟩ := by
    intro key payload found
    rw [Store.payload?_eq, records.overlay] at found
    obtain ⟨⟨above, payload⟩, there, rfl⟩ := Option.map_eq_some_iff.mp found
    exact ⟨above, there⟩
  refine ⟨records.backing, records.wellFormed.singleRooted, fun key reference found => ?_,
    fun key reference found => ?_, fun key reference found => ?_, fun key gone => ?_⟩
  · obtain ⟨above, there⟩ := standing found
    obtain ⟨own, holds⟩ := backed.admits key _ there
    exact ⟨own, Store.contains_iff_holds.mpr holds⟩
  · obtain ⟨above, there⟩ := standing found
    have isLazy : changes.IsLazy key := ⟨above, reference, there⟩
    refine ⟨(records.isLazy_iff (backed.admits key)).mpr isLazy, ?_⟩
    rw [shows.result_children isLazy.holds, Except.ok.injEq, List.eq_nil_iff_forall_not_mem]
    exact fun child listed => backed.leaf key child isLazy ((shows.listed.mem_iff key child).mp listed)
  · obtain ⟨above, there⟩ := standing found
    obtain ⟨same, holds⟩ := backed.admits key _ there
    exact ⟨same, Store.contains_iff_holds.mpr holds⟩
  · exact Store.contains_iff_holds.mpr (backed.deleted key ((records.deleted key).mp gone))

/-- However a buffer over a store with content alone has been edited, it represents changes to the
store. -/
theorem represents_of_anyRun (reachable : base.Reachable) (allContent : base.AllContent)
    (run : AnyRun base buffer) : buffer.Represents base :=
  (isBacked_of_anyRun reachable.wellFormed allContent run).represents

/-- The leaf of a chain is moved below the root, its former parent is made to stand for its base subtree
again, and then the root cannot be moved below the leaf. -/
theorem represents_of_anyRun_chain :
    let moving : BufferEdit String :=
      .insert (some (.number 1)) (.exactly (.number 3)) (.content "moved")
    let restoring : BufferEdit String := .update (.number 2) (.treeReference ⟨⟨1⟩, .number 2⟩)
    let failing : BufferEdit String :=
      .insert (some (.number 3)) (.exactly (.number 1)) (.content "moved")
    let moved := (moving.edit.effect (unchanged (.store Store.chain))).2
    let restored := (restoring.edit.effect moved).2
    let after := (failing.edit.effect restored).2
    Store.chain.Reachable ∧ Store.chain.AllContent ∧ AnyRun Store.chain after ∧
      (failing.edit.effect restored).1 =
        .error (.shape (.rootBelow (.number 1) (.number 3))) ∧
      after.overlay.payload? (.number 2) = some (.treeReference ⟨⟨1⟩, .number 2⟩) ∧
      after.deleted.toList = [.number 3] ∧ after.Represents Store.chain := by
  intro moving restoring failing moved restored after
  have reachable := Store.reachable_ofEdits ⟨1⟩ Store.chainEdits
  have run : AnyRun Store.chain after :=
    .step (.step (.step (.fresh {} none) moving) restoring) failing
  exact ⟨reachable, Store.allContent_chain, run, by decide +kernel, by decide +kernel,
    by decide +kernel, represents_of_anyRun reachable Store.allContent_chain run⟩

end Buffer

end VersionedTrees
