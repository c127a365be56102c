import VersionedTrees.Buffer.Edit
import VersionedTrees.Proofs.Buffer.Expand

/-!
# Reaching keys

To seed an empty overlay unfolds a buffer (`Buffer.unfolds_seed`), and so does reaching a key
(`Buffer.unfolds_reach`). A key is reached exactly if it is shown: the climb from it through the base
ends at a lazy node or at the root over an empty overlay, and the nodes on the way are expanded from
there down to its parent.
-/

namespace VersionedTrees

namespace Buffer

variable {C : Type} {base : Store C} {changes next : Changes C} {buffer after : Buffer C}
  {key parent : Key}

/-! ## Seeding -/

/-- The root of the base may become a lazy root of an empty overlay. -/
theorem sound_seeded {root : Key} (sound : changes.Sound base) (isTree : base.layout.IsTree)
    (empty : ∀ key, changes.overlay key = none) (isRoot : base.layout.IsRoot root)
    (seeded : (changes.place root ⟨none, .treeReference ⟨base.id, root⟩⟩).overlay.IsTree) :
    (changes.place root ⟨none, .treeReference ⟨base.id, root⟩⟩).Sound base := by
  have only : ∀ {key}, (changes.place root ⟨none, .treeReference ⟨base.id, root⟩⟩).overlay.Holds key →
      root = key := by
    rintro key ⟨standing, found⟩
    by_contra different
    rw [Changes.overlay_place, Layout.place_of_ne different, empty] at found
    cases found
  have isLazy : (changes.place root ⟨none, .treeReference ⟨base.id, root⟩⟩).IsLazy root :=
    ⟨_, _, Layout.place_self _ _ _⟩
  refine ⟨⟨seeded, ?_, ?_⟩, ?_, ?_, ?_⟩
  · intro key standing found
    obtain rfl := only ⟨standing, found⟩
    rw [Changes.overlay_place, Layout.place_self, Option.some.injEq] at found
    rw [← found]
    exact ⟨rfl, isRoot.holds⟩
  · rintro key child - isChild
    obtain rfl := only isChild.holds
    obtain ⟨payload, found⟩ := isChild
    rw [Changes.overlay_place, Layout.place_self] at found
    cases found
  · intro key parent absent kept isChild
    by_cases same : root = parent
    · subst same
      exact .inl isLazy
    · exact (Changes.readsBack_place_of_ne same).mpr (sound.covered key parent (empty key) kept isChild)
  · intro key absent kept isRoot'
    obtain rfl := isTree.single root key isRoot isRoot'
    exact absurd absent (Layout.holds_iff_ne_none.mp isLazy.holds)
  · intro key parent holds kept isChild
    obtain rfl := only holds
    exact absurd isChild isRoot.not_isChild

section Unfolding

variable (records : buffer.Records base changes) (sound : changes.Sound base)
  (wellFormed : base.WellFormed) (allContent : base.AllContent)

include records in
theorem Records.isEmpty_iff : buffer.overlay.isEmpty = true ↔ ∀ key, changes.overlay key = none := by
  rw [Store.isEmpty_iff, records.overlay]

include records wellFormed in
/-- To seed a buffer changes nothing, or over an empty overlay it makes the base root lazy. -/
theorem Records.effect_seed :
    (seed.effect buffer = (.ok (), buffer) ∧
      ((∀ key, changes.overlay key = none) → ∀ root, base.layout.IsRoot root → changes.deleted root)) ∨
    ∃ root after, (∀ key, changes.overlay key = none) ∧ base.layout.IsRoot root ∧
      ¬ changes.deleted root ∧ seed.effect buffer = (.ok (), after) ∧
      after.Records base (changes.place root ⟨none, .treeReference ⟨base.id, root⟩⟩) := by
  rw [seed, Edit.effect_current_bind]
  by_cases empty : ∀ key, changes.overlay key = none
  case neg =>
    refine .inl ⟨?_, fun empty' => absurd empty' empty⟩
    rw [← records.isEmpty_iff, Bool.not_eq_true] at empty
    rw [empty]
    rfl
  case pos =>
    rw [records.isEmpty_iff.mpr empty, if_pos rfl]
    have rootKey : buffer.backingTree.rootKey.result = .ok base.root := by
      rw [records.backingTree]
      rfl
    rw [Edit.effect_liftM_bind rootKey]
    cases there : base.root with
    | none =>
        refine .inl ⟨rfl, fun _ other isRoot => ?_⟩
        rw [← wellFormed.root, there] at isRoot
        cases isRoot
    | some root =>
        have isRoot := (wellFormed.root root).mp there
        simp only [Edit.effect_when]
        by_cases deleted : changes.deleted root
        · refine .inl ⟨if_neg ?_, fun _ other isRoot' => ?_⟩
          · rw [records.contains_deleted.mpr deleted]
            exact Bool.false_ne_true
          · rwa [← wellFormed.isTree.single root other isRoot isRoot']
        · obtain ⟨after, ok, records'⟩ :=
            records.insertOverlay_root empty (.exactly root) (.treeReference ⟨base.id, root⟩)
          have id : buffer.backingTree.id = base.id := congrArg Tree.id records.backingTree
          have lazy : (addLazy none root).effect buffer = (.ok (), after) := by
            rw [addLazy, Edit.effect_current_bind, lazyPayload, id, Edit.effect_bind_of_ok ok]
            rfl
          refine .inr ⟨root, after, empty, isRoot, deleted, (if_pos ?_).trans lazy, records'⟩
          rw [Bool.not_eq_true', ← Bool.not_eq_true, records.contains_deleted]
          exact deleted

include sound wellFormed in
/-- Over an empty overlay nothing is shown if the base root is not. -/
theorem shown_eq_none_of_empty (empty : ∀ key, changes.overlay key = none)
    (gone : ∀ root, base.layout.IsRoot root → changes.deleted root) (key : Key) :
    changes.shown base key = none := by
  rw [← Layout.not_holds_iff]
  intro holds
  obtain ⟨root, isRoot, -⟩ := (sound.isTree_shown wellFormed.isTree).exists_root holds
  rcases Changes.holds_shown_cases isRoot.holds with inside | ⟨absent, kept, -⟩
  · exact Layout.holds_iff_ne_none.mp inside (empty root)
  · exact kept (gone root ((Changes.isRoot_shown_of_kept absent kept).mp isRoot))

include records sound wellFormed in
/-- To seed a buffer unfolds it, and opens no node. If the overlay stays empty then nothing is
shown. -/
theorem exists_seed : ∃ after next, seed.effect buffer = (.ok (), after) ∧
    Unfolded base changes after next ∧
    ((∀ key, next.overlay key = none) → ∀ key, changes.shown base key = none) ∧
    Opens changes next fun _ => False := by
  rcases records.effect_seed wellFormed with
    ⟨seeded, gone⟩ | ⟨root, after, empty, isRoot, kept, seeded, records'⟩
  · exact ⟨buffer, changes, seeded, .refl records sound,
      fun empty => shown_eq_none_of_empty sound wellFormed empty (gone empty),
      fun _ back gone => gone back⟩
  · obtain ⟨payload, found⟩ := isRoot
    refine ⟨after, _, seeded, ⟨records', sound_seeded sound wellFormed.isTree empty
      ⟨payload, found⟩ records'.isTree_overlay, ?_, rfl, ?_, ?_, ?_⟩, fun empty' => ?_, ?_⟩
    · rw [Changes.shown_place, Store.lend_treeReference found]
      exact Layout.place_eq_self ((Changes.shown_of_kept (empty root) kept).trans found)
    · exact fun key holds => absurd (empty key) (Layout.holds_iff_ne_none.mp holds)
    · intro key standing found'
      rw [empty] at found'
      cases found'
    · intro key back
      by_cases same : root = key
      · subst same
        exact .inr ⟨empty root, kept⟩
      · exact (Changes.readsBack_place_of_ne same).mp back
    · have there := empty' root
      rw [Changes.overlay_place, Layout.place_self] at there
      cases there
    · intro key back gone
      by_cases same : root = key
      · subst same
        exact gone (.inl ⟨_, _, Layout.place_self _ _ _⟩)
      · exact gone ((Changes.readsBack_place_of_ne same).mpr back)

include records sound wellFormed in
theorem unfolds_seed : ∃ after next, seed.effect buffer = (.ok (), after) ∧
    Unfolded base changes after next ∧
    ((∀ key, next.overlay key = none) → ∀ key, changes.shown base key = none) := by
  obtain ⟨after, next, ok, unfolded, empty, -⟩ := exists_seed records sound wellFormed
  exact ⟨after, next, ok, unfolded, empty⟩

/-! ## Reaching keys -/

include records in
/-- A key that is not shown is not reached. -/
theorem effect_reach_of_absent {key : Key} (absent : changes.shown base key = none) :
    (reach key).effect buffer = (.error (.nodeNotFound key), buffer) := by
  obtain ⟨notThere, gone⟩ := Changes.shown_eq_none_iff.mp absent
  rw [reach, Edit.effect_current_bind, records.contains_overlay_eq_false.mpr notThere]
  by_cases deleted : changes.deleted key
  · refine Edit.effect_bind_of_error ?_
    rw [Edit.effect_liftM, records.contains_deleted.mpr deleted]
    rfl
  · have notDeleted : (!buffer.deleted.contains key) = true := by
      rw [Bool.not_eq_true', ← Bool.not_eq_true, records.contains_deleted]
      exact deleted
    have contains : (buffer.backingTree.contains key).result = .ok false := by
      rw [records.backingTree]
      exact congrArg Except.ok (Store.contains_eq_false_iff.mpr (gone.resolve_left deleted))
    refine (Edit.effect_liftM_bind (Read.result_require_of_true notDeleted)).trans ?_
    exact (Edit.effect_liftM_bind contains).trans (Edit.effect_bind_of_error rfl)

include records in
/-- A key that is reached is shown. -/
theorem holds_of_reach (ok : (reach key).effect buffer = (.ok (), after)) :
    (changes.shown base).Holds key := by
  rw [Layout.holds_iff_ne_none]
  intro absent
  rw [effect_reach_of_absent records absent] at ok
  cases ok

end Unfolding

/-- A climb comes to what can be reached from its start by going to parents. -/
theorem reached_of_climb {reached : Key → Prop}
    (closed : ∀ key parent, reached key → (buffer.backingTree.parent key).result = .ok (some parent) →
      reached parent) {wanted : Key} {levels : Nat} {above anchor : Option Key} {keys : List Key}
    (start : ∀ key, above = some key → reached key)
    (climbed : (buffer.climb wanted levels above).result = .ok (anchor, keys)) :
    (∀ key, anchor = some key → reached key) ∧ ∀ key ∈ keys, reached key := by
  induction levels generalizing above anchor keys with
  | zero =>
      cases above with
      | none =>
          cases climbed
          exact ⟨nofun, nofun⟩
      | some key => cases climbed
  | succ levels inductionHypothesis =>
      cases above with
      | none =>
          cases climbed
          exact ⟨nofun, nofun⟩
      | some key =>
          have here := start key rfl
          rw [climb] at climbed
          split at climbed
          · cases climbed
            refine ⟨?_, nofun⟩
            rintro _ ⟨⟩
            exact here
          · split at climbed
            · cases climbed
            · obtain ⟨parent, told, climbed⟩ := Read.result_bind_eq_ok climbed
              obtain ⟨⟨higher, others⟩, climbed', last⟩ := Read.result_bind_eq_ok climbed
              cases last
              obtain ⟨anchored, passed⟩ := inductionHypothesis
                (fun _ same => closed key _ here (told.trans (congrArg Except.ok same))) climbed'
              refine ⟨anchored, fun other inside => ?_⟩
              rcases List.mem_append.mp inside with inside | inside
              · exact passed other inside
              · rwa [List.mem_singleton.mp inside]

/-- Below an overlay node with content, a base child that is shown is in the overlay. -/
theorem holds_of_parent (sound : changes.Sound base) (isChild : base.layout.IsChild key parent)
    (kept : ¬ changes.deleted key) (holds : changes.overlay.Holds parent)
    (notLazy : ¬ changes.IsLazy parent) : changes.overlay.Holds key := by
  rw [Layout.holds_iff_ne_none]
  intro absent
  rcases sound.covered key parent absent kept isChild with isLazy | ⟨absent, -⟩
  · exact notLazy isLazy
  · exact Layout.holds_iff_ne_none.mp holds absent

/-- Over an overlay with a node in it, the base root is in the overlay if it is shown. -/
theorem holds_of_root (sound : changes.Sound base) (isRoot : base.layout.IsRoot key)
    (kept : ¬ changes.deleted key) (nonempty : ¬ ∀ key, changes.overlay key = none) :
    changes.overlay.Holds key := by
  rw [Layout.holds_iff_ne_none]
  exact fun absent => nonempty (sound.rootCovered key absent kept isRoot)

/-- To expand an anchor and the nodes below it one after the other ends with a node that has content,
and opens nodes on the way to that one only. -/
structure Descends (base : Store C) (changes : Changes C) (buffer : Buffer C) (wanted key : Key)
    (anchor : Option Key) (above : List Key) : Prop where
  exists_effect : ∃ middle after next,
    (expandAnchor wanted anchor).effect buffer = (.ok (), middle) ∧
    (above.forM expandLazy).effect middle = (.ok ⟨⟩, after) ∧
    Unfolded base changes after next ∧ next.overlay.Holds key ∧ ¬ next.IsLazy key ∧
    Opens changes next (base.layout.Within · key)

section Reaching

variable (records : buffer.Records base changes) (sound : changes.Sound base)
  (wellFormed : base.WellFormed) (allContent : base.AllContent)

include wellFormed allContent in
/-- One more node is expanded at the end. -/
theorem Descends.append {wanted : Key} {anchor : Option Key} {above : List Key}
    {middle reached : Buffer C} (anchored : (expandAnchor wanted anchor).effect buffer = (.ok (), middle))
    (descended : (above.forM expandLazy).effect middle = (.ok ⟨⟩, reached))
    (unfolded : Unfolded base changes reached next) (holds : next.overlay.Holds key)
    (there : base.layout.Holds key) (opens : Opens changes next (base.layout.Within · key)) :
    Descends base changes buffer wanted key anchor (above ++ [key]) := by
  obtain ⟨after, last, ok, unfolded', notLazy, opens'⟩ :=
    exists_expandLazy unfolded.records unfolded.sound wellFormed allContent key
  refine ⟨middle, after, last, anchored, ?_, unfolded.trans unfolded', unfolded'.holds key holds,
    notLazy, opens.trans (opens'.mono ?_)⟩
  · rw [Edit.effect_forM_append_of_ok descended, Edit.effect_forM_cons_of_ok ok]
    rfl
  · rintro other rfl
    exact wellFormed.isTree.within_self there

include records in
/-- Above a key that only the base has, the climb goes on. -/
theorem result_climb_of_kept {wanted : Key} {levels : Nat} {above : Option Key}
    {anchor : Option Key} {keys : List Key} (absent : changes.overlay key = none)
    (kept : ¬ changes.deleted key) (parent : (base.tree.parent key).result = .ok above)
    (higher : (buffer.climb wanted levels above).result = .ok (anchor, keys)) :
    (buffer.climb wanted (levels + 1) (some key)).result = .ok (anchor, keys ++ [key]) := by
  have notThere : ¬ buffer.overlay.contains key = true := by
    rw [records.contains_overlay, Layout.not_holds_iff]
    exact absent
  have notDeleted : ¬ buffer.deleted.contains key = true := by
    rwa [records.contains_deleted]
  rw [← records.backingTree] at parent
  rw [climb, if_neg notThere, if_neg notDeleted]
  exact (Read.result_bind_of_ok parent).trans (Read.result_bind_of_ok higher)

include records sound wellFormed allContent in
/-- A lazy node is an anchor itself. -/
theorem descends_of_isLazy (wanted : Key) (isLazy : changes.IsLazy key)
    (there : base.layout.Holds key) :
    Descends base changes buffer wanted key (some key) [] := by
  obtain ⟨after, next, ok, unfolded, notLazy, opens⟩ :=
    exists_expandLazy records sound wellFormed allContent key
  have opens : Opens changes next (base.layout.Within · key) := by
    refine opens.mono ?_
    rintro other rfl
    exact wellFormed.isTree.within_self there
  refine ⟨after, after, next, ?_, rfl, unfolded, unfolded.holds key isLazy.holds, notLazy, opens⟩
  have require : (Read.require (buffer.isLazy key) (.nodeNotFound wanted)).result = .ok () :=
    Read.result_require_of_true ((records.isLazy_iff (sound.admits key)).mpr isLazy)
  rw [expandAnchor, Edit.effect_current_bind]
  exact (Edit.effect_liftM_bind require).trans ok

include records sound wellFormed in
/-- Seeding brings the base root into an empty overlay. -/
theorem exists_seed_of_root (wanted : Key) (isRoot : base.layout.IsRoot key)
    (absent : changes.overlay key = none) (kept : ¬ changes.deleted key) :
    ∃ after next, (expandAnchor wanted none).effect buffer = (.ok (), after) ∧
      Unfolded base changes after next ∧ next.overlay.Holds key ∧
      Opens changes next fun _ => False := by
  obtain ⟨after, next, ok, unfolded, empty, unopened⟩ := exists_seed records sound wellFormed
  refine ⟨after, next, ?_, unfolded, ?_, unopened⟩
  · have require : (Read.require buffer.overlay.isEmpty (.nodeNotFound wanted)).result = .ok () :=
      Read.result_require_of_true
        (records.isEmpty_iff.mpr (sound.rootCovered key absent kept isRoot))
    rw [expandAnchor, Edit.effect_current_bind]
    exact (Edit.effect_liftM_bind require).trans ok
  · refine holds_of_root unfolded.sound isRoot ?_ fun nothing => ?_
    · rwa [unfolded.deleted_eq]
    · obtain ⟨payload, found⟩ := isRoot
      have shown := (Changes.shown_of_kept absent kept).trans found
      rw [empty nothing key] at shown
      cases shown

include records sound wellFormed allContent in
/-- From a base node that is read from the base, the climb leads to an anchor, and the way down from
there to the node itself. -/
theorem exists_climb {line : List Key} (wanted : Key) (isLine : base.layout.Line key line)
    (back : changes.ReadsBack key) {levels : Nat} (enough : line.length ≤ levels) :
    ∃ anchor above, (buffer.climb wanted levels (some key)).result = .ok (anchor, above) ∧
      Descends base changes buffer wanted key anchor above := by
  induction isLine generalizing levels with
  | @root key isRoot =>
      obtain ⟨levels, rfl⟩ : ∃ rest, levels = rest + 1 := ⟨levels - 1, by simp at enough; omega⟩
      rcases back with isLazy | ⟨absent, kept⟩
      · refine ⟨_, _, ?_,
          descends_of_isLazy records sound wellFormed allContent wanted isLazy isRoot.holds⟩
        rw [climb, if_pos (records.contains_overlay.mpr isLazy.holds)]
        rfl
      · have parent : (base.tree.parent key).result = .ok none :=
          wellFormed.shows.result_parent_eq_none_iff.mpr isRoot
        obtain ⟨after, next, ok, unfolded, holds, unopened⟩ :=
          exists_seed_of_root records sound wellFormed wanted isRoot absent kept
        exact ⟨none, [] ++ [key], result_climb_of_kept records absent kept parent (by cases levels <;> rfl),
          .append wellFormed allContent ok rfl unfolded holds isRoot.holds
            (unopened.mono fun _ => False.elim)⟩
  | @child key parent line isChild above inductionHypothesis =>
      rw [List.length_cons] at enough
      obtain ⟨levels, rfl⟩ : ∃ rest, levels = rest + 1 := ⟨levels - 1, by omega⟩
      rcases back with isLazy | ⟨absent, kept⟩
      · refine ⟨_, _, ?_,
          descends_of_isLazy records sound wellFormed allContent wanted isLazy isChild.holds⟩
        rw [climb, if_pos (records.contains_overlay.mpr isLazy.holds)]
        rfl
      · have told : (base.tree.parent key).result = .ok (some parent) :=
          wellFormed.shows.result_parent_eq_some_iff.mpr isChild
        have backAbove := sound.covered key parent absent kept isChild
        obtain ⟨anchor, keys, climbed, ⟨middle, after, next, anchored, descended, unfolded, holds,
          notLazy, opens⟩⟩ := inductionHypothesis backAbove (Nat.le_of_succ_le_succ enough)
        have kept' : ¬ next.deleted key := by rwa [unfolded.deleted_eq]
        exact ⟨anchor, keys ++ [key], result_climb_of_kept records absent kept told climbed,
          .append wellFormed allContent anchored descended unfolded
            (holds_of_parent unfolded.sound isChild kept' holds notLazy) isChild.holds
            (opens.mono fun _ => isChild.within)⟩

include records sound wellFormed allContent in
/-- A key that is shown is reached, and the buffer is unfolded by that. Nodes are opened if the key is
not in the overlay yet, and then nodes above it only. -/
theorem exists_reach {key : Key} (holds : (changes.shown base).Holds key) :
    ∃ after next, (reach key).effect buffer = (.ok (), after) ∧
      Unfolded base changes after next ∧ next.overlay.Holds key ∧
      Opens changes next fun other =>
        changes.overlay key = none ∧ other ≠ key ∧ base.layout.Within other key := by
  rw [reach, Edit.effect_current_bind]
  rcases Changes.holds_shown_cases holds with inside | ⟨absent, kept, there⟩
  · refine ⟨buffer, changes, ?_, .refl records sound, inside, fun _ back gone => absurd back gone⟩
    rw [if_pos (records.contains_overlay.mpr inside), Edit.effect_pure]
  · have notThere : ¬ buffer.overlay.contains key = true := by
      rw [records.contains_overlay, Layout.not_holds_iff]
      exact absent
    have notDeleted : (!buffer.deleted.contains key) = true := by
      rw [Bool.not_eq_true', ← Bool.not_eq_true, records.contains_deleted]
      exact kept
    have contains : (buffer.backingTree.contains key).result = .ok true := by
      rw [records.backingTree]
      exact congrArg Except.ok (Store.contains_iff_holds.mpr there)
    -- the climb starts at the parent, and its way down ends there
    have climbed : ∃ parent anchor above middle after next,
        (buffer.backingTree.parent key).result = .ok parent ∧
        (buffer.climb key buffer.backingTree.levels parent).result = .ok (anchor, above) ∧
        (expandAnchor key anchor).effect buffer = (.ok (), middle) ∧
        (above.forM expandLazy).effect middle = (.ok ⟨⟩, after) ∧
        Unfolded base changes after next ∧ next.overlay.Holds key ∧
        Opens changes next fun other => other ≠ key ∧ base.layout.Within other key := by
      rw [records.backingTree]
      rcases there.isRoot_or_isChild with isRoot | ⟨parent, isChild⟩
      · obtain ⟨after, next, ok, unfolded, inside, unopened⟩ :=
          exists_seed_of_root records sound wellFormed key isRoot absent kept
        exact ⟨none, none, [], after, after, next,
          wellFormed.shows.result_parent_eq_none_iff.mpr isRoot, rfl, ok, rfl, unfolded, inside,
          unopened.mono fun _ => False.elim⟩
      · obtain ⟨line, isLine⟩ :=
          wellFormed.isTree.rooted parent (wellFormed.isTree.parent_holds isChild)
        obtain ⟨anchor, keys, climbed, ⟨middle, after, next, anchored, descended, unfolded, inside,
          notLazy, opens⟩⟩ := exists_climb records sound wellFormed allContent key isLine
            (sound.covered key parent absent kept isChild)
            (Nat.le_succ_of_le (base.depthAtMost_size parent line isLine))
        have kept' : ¬ next.deleted key := by rwa [unfolded.deleted_eq]
        refine ⟨some parent, anchor, keys, middle, after, next,
          wellFormed.shows.result_parent_eq_some_iff.mpr isChild, climbed, anchored, descended,
          unfolded, holds_of_parent unfolded.sound isChild kept' inside notLazy, opens.mono ?_⟩
        intro other within
        refine ⟨?_, isChild.within within⟩
        rintro rfl
        exact isChild.not_within wellFormed.isTree within
    obtain ⟨parent, anchor, keys, middle, after, next, told, climbed, anchored, descended, unfolded,
      inside, opens⟩ := climbed
    refine ⟨after, next, ?_, unfolded, inside, opens.mono fun _ above => ⟨absent, above⟩⟩
    rw [if_neg notThere]
    refine (Edit.effect_liftM_bind (Read.result_require_of_true notDeleted)).trans ?_
    refine (Edit.effect_liftM_bind contains).trans ?_
    refine (Edit.effect_liftM_bind (Read.result_require_of_true rfl)).trans ?_
    refine (Edit.effect_liftM_bind told).trans ((Edit.effect_liftM_bind climbed).trans ?_)
    refine (Edit.effect_bind_of_ok anchored).trans ((Edit.effect_bind_of_ok descended).trans ?_)
    rw [Edit.effect_current_bind, Edit.effect_liftM, unfolded.records.contains_overlay.mpr inside]
    rfl

include records sound wellFormed allContent in
theorem unfolds_reach {key : Key} (holds : (changes.shown base).Holds key) :
    ∃ after next, (reach key).effect buffer = (.ok (), after) ∧
      Unfolded base changes after next ∧ next.overlay.Holds key := by
  obtain ⟨after, next, ok, unfolded, inside, -⟩ :=
    exists_reach records sound wellFormed allContent holds
  exact ⟨after, next, ok, unfolded, inside⟩

end Reaching

end Buffer

end VersionedTrees
