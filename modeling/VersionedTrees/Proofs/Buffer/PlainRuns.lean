import VersionedTrees.Proofs.Buffer.Whole

/-!
# Runs without stored tree-references

`PlainRun` are the buffers that successful edits lead to, deltas and expansions included, as long as
no tree-reference is inserted or updated. Their changes are whole (`Buffer.isWhole_of_plainRun`).

Over whole changes an expansion of a subtree does what it is for: it succeeds if the buffer contains
the key, nothing is seen of it, and all that is shown at and below the key has content of its own then
(`Buffer.expandAll_materializes`). The walk follows the children in the overlay. They are those that
are shown as soon as a node is not lazy any more, so the walk comes to the whole subtree although the
overlay is being filled on the way.
-/

namespace VersionedTrees

variable {C : Type}

namespace Changes

/-- An overlay node has content of its own. -/
def HasContent (changes : Changes C) (key : Key) : Prop :=
  ∃ above value, changes.overlay key = some ⟨above, .content value⟩

end Changes

namespace Buffer

variable {base : Store C} {changes next last : Changes C} {buffer after : Buffer C} {key : Key}

/-! ## Materializing -/

/-- A buffer shows what it showed over whole changes, and more of the overlay has content. -/
structure Materialized (base : Store C) (changes : Changes C) (after : Buffer C) (next : Changes C) :
    Prop where
  records : after.Records base next
  whole : next.Whole base
  shown_eq : next.shown base = changes.shown base
  holds : ∀ key, changes.overlay.Holds key → next.overlay.Holds key
  hasContent : ∀ key, changes.HasContent key → next.HasContent key

theorem Materialized.trans {middle : Buffer C} (first : Materialized base changes middle next)
    (second : Materialized base next after last) : Materialized base changes after last where
  records := second.records
  whole := second.whole
  shown_eq := second.shown_eq.trans first.shown_eq
  holds key holds := second.holds key (first.holds key holds)
  hasContent key content := second.hasContent key (first.hasContent key content)

theorem Unfolded.materialized (unfolded : Unfolded base changes after next)
    (whole : changes.Whole base) : Materialized base changes after next where
  records := unfolded.records
  whole := unfolded.whole whole
  shown_eq := unfolded.shown_eq
  holds := unfolded.holds
  hasContent key content := by
    obtain ⟨above, value, found⟩ := content
    refine ⟨above, value, unfolded.keeps key _ found ?_⟩
    rintro ⟨_, _, found'⟩
    rw [found] at found'
    cases found'

section Materializing

variable (records : buffer.Records base changes) (whole : changes.Whole base)
  (wellFormed : base.WellFormed) (allContent : base.AllContent)

include records whole wellFormed allContent

/-- A node that is not lazy gets the content that it is lent, if it is lent any. -/
theorem materialized_of_copyTarget (holds : changes.overlay.Holds key)
    (notLazy : ¬ changes.IsLazy key) : ∃ after next,
    (copyTarget key).effect buffer = (.ok (), after) ∧ Materialized base changes after next ∧
      next.HasContent key := by
  obtain ⟨after, next, copied, records', ⟨rfl, other⟩ | ⟨above, value, shown, rfl, fits⟩⟩ :=
    exists_copyTarget allContent records whole.toValid key
  · refine ⟨after, next, copied, ⟨records', whole, rfl, fun _ => id, fun _ => id⟩, ?_⟩
    obtain ⟨⟨above, payload⟩, found⟩ := holds
    cases payload with
    | content value => exact ⟨above, value, found⟩
    | nodeReference reference => exact absurd found (other above reference)
    | treeReference reference => exact absurd ⟨above, reference, found⟩ notLazy
  · have here : (changes.place key ⟨above, .content value⟩).HasContent key :=
      ⟨above, value, Layout.place_self _ _ _⟩
    refine ⟨after, _, copied, ⟨records', whole.place wellFormed fits records'.isTree_overlay, ?_, ?_,
      ?_⟩, here⟩
    · rw [Changes.shown_place]
      exact Layout.place_eq_self shown
    · intro other inside
      by_cases same : key = other
      · subst same
        exact ⟨_, Layout.place_self _ _ _⟩
      · rwa [Layout.Holds, Changes.overlay_place, Layout.place_of_ne same]
    · intro other content
      by_cases same : key = other
      · subst same
        exact here
      · rwa [Changes.HasContent, Changes.overlay_place, Layout.place_of_ne same]

/-- To materialize an overlay node names the children that are shown, later siblings first. They are in
the overlay then, and the node has content. -/
theorem exists_materializeNode (holds : changes.overlay.Holds key) : ∃ after next,
    (materializeNode key).effect buffer = (.ok (buffer.tree.childList key).reverse, after) ∧
      Materialized base changes after next ∧ next.HasContent key ∧
      ∀ child ∈ buffer.tree.childList key, next.overlay.Holds child := by
  obtain ⟨first, middle, expanded, unfolded, notLazy⟩ :=
    unfolds_expandLazy records whole.toSound wellFormed allContent key
  have inside := unfolded.holds key holds
  obtain ⟨after, next, copied, materialized, content⟩ :=
    materialized_of_copyTarget unfolded.records (unfolded.whole whole) wellFormed allContent inside
      notLazy
  have materialized := (unfolded.materialized whole).trans materialized
  have records' := materialized.records
  have holds' : next.overlay.Holds key := materialized.holds key holds
  have notLazy' : ¬ next.IsLazy key := by
    obtain ⟨above, value, found⟩ := content
    rintro ⟨_, _, found'⟩
    rw [found] at found'
    cases found'
  have sameList : buffer.tree.childList key = after.overlay.tree.childList key := by
    rw [← childList_of_overlay materialized.whole.admits records' holds' notLazy']
    refine congrFun ((listedBy_shown records wellFormed whole.toSound).unique ?_) key
    rw [← materialized.shown_eq]
    exact listedBy_shown records' wellFormed materialized.whole.toSound
  refine ⟨after, next, ?_, materialized, content, fun child listed => ?_⟩
  · have children : (after.overlay.tree.children key).result =
        .ok (after.overlay.tree.childList key) := by
      refine records'.wellFormed.shows.result_children ?_
      rwa [records'.overlay]
    rw [materializeNode, Edit.effect_bind_of_ok expanded, Edit.effect_bind_of_ok copied,
      Edit.effect_current_bind, Edit.effect_liftM_bind children, sameList]
    rfl
  · rw [sameList] at listed
    exact ((mem_overlay_childList records').mp listed).holds

/-- A key that is shown can be expanded with all that lies below it. Nothing is seen of that, and all of
it has content then. -/
theorem exists_expandAll (holds : (changes.shown base).Holds key) : ∃ after next,
    (expandAll key).effect buffer = (.ok (), after) ∧ Materialized base changes after next ∧
      ∀ other, (changes.shown base).Within key other → next.HasContent other := by
  obtain ⟨first, middle, reached, unfolded, inside⟩ :=
    unfolds_reach records whole.toSound wellFormed allContent holds
  have wholeMiddle := unfolded.whole whole
  have listed := listedBy_shown unfolded.records wellFormed unfolded.sound
  -- what the walk comes to next is known beforehand, since nothing is seen of a step
  have step : ∀ (state : Buffer C) (key : Key), (∃ next, Materialized base middle state next) →
      state.overlay.layout.Holds key → ∃ after,
        (materializeNode key).effect state = (.ok (first.tree.childList key).reverse, after) ∧
        (∃ next, Materialized base middle after next) ∧
        (∃ above value, after.overlay.layout key = some ⟨above, .content value⟩) ∧
        (∀ child ∈ (first.tree.childList key).reverse, after.overlay.layout.Holds child) ∧
        ∀ other, (state.overlay.layout.Holds other → after.overlay.layout.Holds other) ∧
          ((∃ above value, state.overlay.layout other = some ⟨above, .content value⟩) →
            ∃ above value, after.overlay.layout other = some ⟨above, .content value⟩) := by
    rintro state key ⟨next, materialized⟩ ready
    rw [materialized.records.overlay] at ready
    obtain ⟨after, last, handled, materialized', content, below⟩ :=
      exists_materializeNode materialized.records materialized.whole wellFormed allContent ready
    have sameList : state.tree.childList = first.tree.childList := by
      refine (listedBy_shown materialized.records wellFormed materialized.whole.toSound).unique ?_
      rwa [materialized.shown_eq]
    rw [sameList] at handled below
    refine ⟨after, handled, ⟨last, materialized.trans materialized'⟩, ?_⟩
    rw [materialized.records.overlay, materialized'.records.overlay]
    exact ⟨content, fun child inside => below child (List.mem_reverse.mp inside), fun other =>
      ⟨materialized'.holds other, materialized'.hasContent other⟩⟩
  have start : first.overlay.layout.Holds key := by rwa [unfolded.records.overlay]
  obtain ⟨after, walked, ⟨next, materialized⟩, done, -⟩ :=
    Edit.exists_depthFirst _ _ _ step (first.overlay.size + first.backingTree.span + 1) key
      ⟨middle, unfolded.records, wholeMiddle, rfl, fun _ => id, fun _ => id⟩ start
  refine ⟨after, next, ?_, (unfolded.materialized whole).trans materialized, fun other within => ?_⟩
  · rw [expandAll, Edit.effect_bind_of_ok reached, Edit.effect_current_bind]
    exact walked
  · rw [← unfolded.shown_eq] at within
    have shows := unfolded.records.shows allContent wellFormed unfolded.sound
    have enough : first.tree.span ≤ first.overlay.size + first.backingTree.span + 1 := by
      rw [unfolded.records.span_eq, unfolded.records.backingTree]
      exact Nat.le_succ _
    have content := done other (within.mem_preorder
      (fun above child isChild => List.mem_reverse.mpr ((listed.mem_iff above child).mpr isChild))
      ((shows.exhausts within.top_holds enough).of_subset
        fun _ _ inside => List.mem_reverse.mp inside))
    rwa [materialized.records.overlay] at content

end Materializing

/-- A node with content of its own is materialized and not lazy. -/
theorem Records.isMaterialized (records : buffer.Records base changes)
    (content : changes.HasContent key) :
    buffer.isMaterialized key = true ∧ buffer.isLazy key = false := by
  obtain ⟨above, value, found⟩ := content
  have payload : buffer.overlay.payload? key = some (.content value) := by
    rw [Store.payload?_eq, records.overlay, found]
    rfl
  rw [Buffer.isMaterialized, isLazy, payload]
  exact ⟨rfl, rfl⟩

end Buffer

/-! ## Runs -/

/-- An edit stores no tree-reference. -/
def BufferEdit.Plain : BufferEdit C → Prop
  | .insert _ _ payload | .update _ payload => payload.isTreeReference = false
  | .delete _ | .expandAll _ | .replace _ | .applyDelta _ | .reset => True

/-- A buffer after a run of edits that succeeded and stored no tree-reference. -/
inductive PlainRun (base : Store C) : Buffer C → Prop where
  | fresh (settings : ViewSettings) (trap : Option Trap) :
      PlainRun base (Buffer.unchanged (.store base) settings trap)
  | seeded (settings : ViewSettings) (trap : Option Trap) :
      PlainRun base (Buffer.seed.effect (Buffer.unchanged (.store base) settings trap)).2
  | step {buffer after : Buffer C} (run : PlainRun base buffer) (edit : BufferEdit C)
      {told : Option Key} (ok : edit.edit.effect buffer = (.ok told, after)) (plain : edit.Plain) :
      PlainRun base after

/-- A run goes on with a list of edits that all succeed. -/
theorem PlainRun.mapM {base : Store C} {buffer after : Buffer C} {edits : List (BufferEdit C)}
    {told : List (Option Key)} (run : PlainRun base buffer) (plain : ∀ edit ∈ edits, edit.Plain)
    (ok : (edits.mapM BufferEdit.edit).effect buffer = (.ok told, after)) : PlainRun base after := by
  induction edits generalizing buffer told with
  | nil =>
      cases ok
      exact run
  | cons edit edits inductionHypothesis =>
      rw [List.mapM_cons] at ok
      obtain ⟨first, middle, edited, ok⟩ := Edit.effect_bind_eq_ok ok
      obtain ⟨rest, last, rested, ok⟩ := Edit.effect_bind_eq_ok ok
      cases ok
      exact inductionHypothesis (run.step edit edited (plain edit List.mem_cons_self))
        (fun other later => plain other (List.mem_cons_of_mem _ later)) rested

namespace Buffer

variable {base : Store C} {buffer after : Buffer C}

/-- An edit that succeeds without storing a tree-reference leaves whole changes. -/
theorem IsWhole.edit {edit : BufferEdit C} {told : Option Key} (whole : IsWhole base buffer)
    (wellFormed : base.WellFormed) (allContent : base.AllContent)
    (ok : edit.edit.effect buffer = (.ok told, after)) (plain : edit.Plain) :
    IsWhole base after := by
  obtain ⟨changes, records, whole⟩ := whole
  cases edit with
  | insert parent placement payload =>
      obtain ⟨key, ok, -⟩ := Edit.effect_map_eq_ok ok
      exact isWhole_of_insert records whole wellFormed allContent plain ok
  | update key payload =>
      obtain ⟨⟨⟩, ok, -⟩ := Edit.effect_map_eq_ok ok
      exact isWhole_of_update records whole wellFormed allContent plain ok
  | delete key =>
      obtain ⟨⟨⟩, ok, -⟩ := Edit.effect_map_eq_ok ok
      exact isWhole_of_delete records whole wellFormed allContent ok
  | expandAll key =>
      obtain ⟨⟨⟩, ok, -⟩ := Edit.effect_map_eq_ok ok
      by_cases absent : changes.shown base key = none
      · rw [expandAll, Edit.effect_bind_of_error (effect_reach_of_absent records absent)] at ok
        cases ok
      · obtain ⟨last, next, expanded, materialized, -⟩ := exists_expandAll records whole wellFormed
          allContent (Layout.holds_iff_ne_none.mpr absent)
        obtain rfl := Edit.after_unique expanded ok
        exact ⟨next, materialized.records, materialized.whole⟩
  | replace delta =>
      obtain ⟨⟨⟩, ok, -⟩ := Edit.effect_map_eq_ok ok
      exact isWhole_of_replace records.backing wellFormed allContent ok
  | applyDelta delta =>
      obtain ⟨⟨⟩, ok, -⟩ := Edit.effect_map_eq_ok ok
      exact isWhole_of_replace records.backing wellFormed allContent (replaced_of_applyDelta ok)
  | reset =>
      obtain ⟨⟨⟩, ok, -⟩ := Edit.effect_map_eq_ok ok
      cases ok
      exact ⟨_, records_reset records.backing, Changes.whole_untouched⟩

/-- A run without stored tree-references ends with whole changes. -/
theorem isWhole_of_plainRun (wellFormed : base.WellFormed) (allContent : base.AllContent)
    (run : PlainRun base buffer) : IsWhole base buffer := by
  induction run with
  | fresh settings trap => exact ⟨_, records_unchanged base settings trap, Changes.whole_untouched⟩
  | seeded settings trap =>
      obtain ⟨after, next, seeded, unfolded, -⟩ :=
        unfolds_seed (records_unchanged base settings trap) Changes.sound_untouched wellFormed
      rw [seeded]
      exact ⟨next, unfolded.records, unfolded.whole Changes.whole_untouched⟩
  | step _ edit ok plain inductionHypothesis =>
      exact inductionHypothesis.edit wellFormed allContent ok plain

/-- After a run without stored tree-references, to expand a key with all that lies below it fails for
want of the key and changes nothing, or the buffer contains the key. Then it succeeds, no read tells of
it, and every key that the buffer tells there afterwards is materialized and not lazy. -/
theorem expandAll_materializes (reachable : base.Reachable) (allContent : base.AllContent)
    (run : PlainRun base buffer) (key : Key) :
    (buffer.tree.contains key).result = .ok false ∧
        (expandAll key).effect buffer = (.error (.nodeNotFound key), buffer) ∨
      (buffer.tree.contains key).result = .ok true ∧ ∃ after keys,
        (expandAll key).effect buffer = (.ok (), after) ∧ after.tree.SameReads buffer.tree ∧
        (after.tree.keysFrom key).result = .ok keys ∧
        ∀ other ∈ keys, after.isMaterialized other = true ∧ after.isLazy other = false := by
  have wellFormed := reachable.wellFormed
  obtain ⟨changes, records, whole⟩ := isWhole_of_plainRun wellFormed allContent run
  have shows := records.shows allContent wellFormed whole.toSound
  by_cases absent : changes.shown base key = none
  · refine .inl ⟨?_, ?_⟩
    · rw [shows.contains, absent]
      rfl
    · rw [expandAll, Edit.effect_bind_of_error (effect_reach_of_absent records absent)]
  · have holds := Layout.holds_iff_ne_none.mpr absent
    obtain ⟨after, next, expanded, materialized, content⟩ :=
      exists_expandAll records whole wellFormed allContent holds
    have shows' := materialized.records.shows allContent wellFormed materialized.whole.toSound
    rw [materialized.shown_eq] at shows'
    refine .inr ⟨?_, after, _, expanded, shows'.sameReads shows,
      (shows'.result_keysFrom_eq shows holds).trans (shows.result_keysFrom holds), fun other told =>
        materialized.records.isMaterialized (content other ?_)⟩
    · rw [shows.contains, Layout.holds_iff_isSome.mp holds]
    · exact (shows.listed.mem_preorder_iff shows.isTree holds
        (shows.exhausts holds (Nat.le_refl _))).mp told

/-- The leaf of a chain has been moved below the root and lent the content of the node that it left. All
three nodes are materialized then. -/
theorem expandAll_materializes_chain :
    let edit : BufferEdit String :=
      .insert (some (.number 1)) (.exactly (.number 3)) (.nodeReference ⟨⟨1⟩, .number 2⟩)
    let buffer := (edit.edit.effect (unchanged (.store Store.chain))).2
    Store.chain.Reachable ∧ Store.chain.AllContent ∧ PlainRun Store.chain buffer ∧
      ∃ after, (expandAll (.number 1)).effect buffer = (.ok (), after) ∧
        after.tree.SameReads buffer.tree ∧
        (after.tree.keysFrom (.number 1)).result = .ok [.number 1, .number 2, .number 3] ∧
        after.isMaterialized (.number 2) = true ∧ after.isMaterialized (.number 3) = true := by
  intro edit buffer
  have reachable := Store.reachable_ofEdits ⟨1⟩ Store.chainEdits
  have ok : edit.edit.effect (unchanged (.store Store.chain)) = (.ok (some (.number 3)), buffer) :=
    Edit.effect_eq_of_result (by decide +kernel)
  have run : PlainRun Store.chain buffer := .step (.fresh {} none) edit ok rfl
  have contained : (buffer.tree.contains (.number 1)).result = .ok true := by decide +kernel
  have told : (((expandAll (.number 1)).effect buffer).2.tree.keysFrom (.number 1)).result =
      .ok [.number 1, .number 2, .number 3] := by decide +kernel
  refine ⟨reachable, Store.allContent_chain, run, ?_⟩
  rcases expandAll_materializes reachable Store.allContent_chain run (.number 1) with
    ⟨absent, -⟩ | ⟨-, after, keys, expanded, sameReads, told', content⟩
  · rw [contained] at absent
    cases absent
  · rw [expanded, told'] at told
    cases told
    exact ⟨after, expanded, sameReads, told', (content (.number 2) (by decide)).1,
      (content (.number 3) (by decide)).1⟩

end Buffer

end VersionedTrees
