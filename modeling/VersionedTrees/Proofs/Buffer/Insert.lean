import VersionedTrees.Proofs.Buffer.Reach
import VersionedTrees.Proofs.Buffer.Remove

/-!
# Placing nodes in a change buffer

An insertion or an update first unfolds the buffer, so that the parent of the node has its children in
the overlay and the node itself, if it is shown, has content. Then to place the node keeps the changes
sound (`Changes.Sound.place`) and intact, and what is shown changes at that key alone
(`Changes.shown_place`).
-/

namespace VersionedTrees

variable {C : Type}

namespace Changes

variable {base : Store C} {changes next : Changes C} {key : Key} {standing : Standing C}

/-- A node may be put under a key: its parent has its children in the overlay, and under the key
there is an overlay node or nothing at all. -/
structure Enters (base : Store C) (changes : Changes C) (key : Key) (standing : Standing C) :
    Prop where
  admits : base.Admits key standing.payload
  below : ∀ parent, standing.parent = some parent → ¬ changes.IsLazy parent
  at_key : changes.overlay.Holds key ∨ changes.shown base key = none
  nonempty : (∀ key, changes.overlay key = none) → ∀ key, changes.shown base key = none

/-- A node fits under a key: it may be put there, it is no tree-reference, and nor is what it
takes the place of. -/
structure Fits (base : Store C) (changes : Changes C) (key : Key) (standing : Standing C) :
    Prop where
  admits : base.Admits key standing.payload
  notReference : standing.payload.isTreeReference = false
  below : ∀ parent, standing.parent = some parent → ¬ changes.IsLazy parent
  at_key : changes.overlay.Holds key ∧ ¬ changes.IsLazy key ∨ changes.shown base key = none
  nonempty : (∀ key, changes.overlay key = none) → ∀ key, changes.shown base key = none

theorem Fits.enters (fits : changes.Fits base key standing) : changes.Enters base key standing :=
  ⟨fits.admits, fits.below, fits.at_key.imp_left And.left, fits.nonempty⟩

/-- The base children of a key are in the overlay or deleted. -/
def Accounted (base : Store C) (changes : Changes C) (key : Key) : Prop :=
  ∀ child, base.layout.IsChild child key → changes.overlay.Holds child ∨ changes.deleted child

/-- Where sound changes do not read from the base, nothing of the base is left behind. -/
theorem Sound.accounted (sound : changes.Sound base) (notBack : ¬ changes.ReadsBack key) :
    changes.Accounted base key := by
  intro child isChild
  by_contra left
  obtain ⟨absent, kept⟩ := not_or.mp left
  exact notBack (sound.covered child key (Layout.not_holds_iff.mp absent) kept isChild)

/-- A key where a node fits is not read from the base. -/
theorem Fits.not_readsBack (fits : changes.Fits base key standing)
    (holds : base.layout.Holds key) : ¬ changes.ReadsBack key := by
  rintro (isLazy | ⟨absent, kept⟩)
  · rcases fits.at_key with ⟨-, notLazy⟩ | gone
    · exact notLazy isLazy
    · exact Layout.holds_iff_ne_none.mp (holds_shown_of_overlay isLazy.holds) gone
  · rcases fits.at_key with ⟨inside, -⟩ | gone
    · exact Layout.holds_iff_ne_none.mp inside absent
    · rw [shown_of_kept absent kept] at gone
      exact Layout.holds_iff_ne_none.mp holds gone

/-- With a node that is no tree-reference no more is read from the base than before. -/
theorem readsBack_place_cases (notReference : standing.payload.isTreeReference = false)
    {other : Key} (back : (changes.place key standing).ReadsBack other) :
    key ≠ other ∧ changes.ReadsBack other := by
  have different : key ≠ other := by
    rintro rfl
    exact not_readsBack_place notReference back
  exact ⟨different, (readsBack_place_of_ne different).mp back⟩

/-- What is not in the overlay with a node was not there without it, and is another key. -/
theorem absent_of_place {other : Key} (absent : (changes.place key standing).overlay other = none) :
    key ≠ other ∧ changes.overlay other = none := by
  have different : key ≠ other := by
    rintro rfl
    rw [overlay_place, Layout.place_self] at absent
    cases absent
  rw [overlay_place, Layout.place_of_ne different] at absent
  exact ⟨different, absent⟩

theorem holds_of_place {other : Key} (different : key ≠ other)
    (holds : (changes.place key standing).overlay.Holds other) : changes.overlay.Holds other := by
  obtain ⟨standing', found⟩ := holds
  rw [overlay_place, Layout.place_of_ne different] at found
  exact ⟨standing', found⟩

section Valid

variable (valid : changes.Valid base)

include valid

/-- With a node that may stand under its key, references still point into the base. -/
theorem Valid.admits_place {other : Key} {found : Standing C} (admits : base.Admits key standing.payload)
    (there : (changes.place key standing).overlay other = some found) :
    base.Admits other found.payload := by
  by_cases same : key = other
  · subst same
    rw [overlay_place, Layout.place_self, Option.some.injEq] at there
    rw [← there]
    exact admits
  · rw [overlay_place, Layout.place_of_ne same] at there
    exact valid.admits other found there

/-- With a node below one that is not lazy, other lazy nodes still have no overlay children. -/
theorem Valid.leaf_place {other child : Key}
    (below : ∀ parent, standing.parent = some parent → ¬ changes.IsLazy parent) (different : key ≠ other)
    (isLazy : (changes.place key standing).IsLazy other) :
    ¬ (changes.place key standing).overlay.IsChild child other := by
  rintro ⟨payload, found⟩
  have isLazy := (isLazy_place_of_ne different).mp isLazy
  by_cases same : key = child
  · subst same
    rw [overlay_place, Layout.place_self, Option.some.injEq] at found
    exact below other (by rw [found]) isLazy
  · rw [overlay_place, Layout.place_of_ne same] at found
    exact valid.leaf other child isLazy ⟨payload, found⟩

/-- A node that is no tree-reference keeps changes valid, below one that is not lazy. -/
theorem Valid.place_plain (admits : base.Admits key standing.payload)
    (below : ∀ parent, standing.parent = some parent → ¬ changes.IsLazy parent)
    (notReference : standing.payload.isTreeReference = false)
    (isTree : (changes.place key standing).overlay.IsTree) :
    (changes.place key standing).Valid base where
  isTree := isTree
  admits _ _ there := valid.admits_place admits there
  leaf _ _ isLazy := valid.leaf_place below (readsBack_place_cases notReference (.inl isLazy)).1 isLazy

end Valid

section Enters

variable (sound : changes.Sound base) (enters : changes.Enters base key standing)

include sound enters

theorem Enters.rootCovered_place {other : Key}
    (absent : (changes.place key standing).overlay other = none) (kept : ¬ changes.deleted other)
    (isRoot : base.layout.IsRoot other) : False := by
  obtain ⟨-, absent⟩ := absent_of_place absent
  -- the base root is shown over an empty overlay only, and there nothing is shown
  have nothing := enters.nonempty (sound.rootCovered other absent kept isRoot) other
  rw [shown_of_kept absent kept] at nothing
  exact Layout.holds_iff_ne_none.mp isRoot.holds nothing

/-- An overlay node is no child of another key that is read from the base. -/
theorem Enters.exclusive_place {other parent : Key}
    (holds : (changes.place key standing).overlay.Holds other) (kept : ¬ changes.deleted other)
    (isChild : base.layout.IsChild other parent) : ¬ changes.ReadsBack parent := by
  by_cases same : key = other
  · subst same
    rcases enters.at_key with inside | gone
    · exact sound.exclusive key parent inside kept isChild
    · rcases (shown_eq_none_iff.mp gone).2 with deleted | absent
      · exact absurd deleted kept
      · exact absurd absent (Layout.holds_iff_ne_none.mp isChild.holds)
  · exact sound.exclusive other parent (holds_of_place same holds) kept isChild

/-- A node that is no tree-reference keeps changes valid. -/
theorem Enters.valid_place (notReference : standing.payload.isTreeReference = false)
    (isTree : (changes.place key standing).overlay.IsTree) :
    (changes.place key standing).Valid base :=
  sound.place_plain enters.admits enters.below notReference isTree

/-- A node that is no tree-reference keeps changes sound exactly when nothing of the base is left
behind below it. -/
theorem Enters.sound_place_iff (notReference : standing.payload.isTreeReference = false)
    (isTree : (changes.place key standing).overlay.IsTree) :
    (changes.place key standing).Sound base ↔
      (changes.place key standing).Accounted base key := by
  constructor
  · exact fun sound => sound.accounted (not_readsBack_place notReference)
  · intro accounted
    refine ⟨enters.valid_place sound notReference isTree, fun other parent absent kept isChild => ?_,
      fun other absent kept isRoot => (enters.rootCovered_place sound absent kept isRoot).elim,
      fun other parent holds kept isChild back => ?_⟩
    · have back := sound.covered other parent (absent_of_place absent).2 kept isChild
      have different : key ≠ parent := by
        rintro rfl
        exact (accounted other isChild).elim (Layout.not_holds_iff.mpr absent) kept
      exact (readsBack_place_of_ne different).mpr back
    · exact enters.exclusive_place sound holds kept isChild
        (readsBack_place_cases notReference back).2

end Enters

/-- A node that fits keeps changes sound. -/
theorem Sound.place (sound : changes.Sound base) (wellFormed : base.WellFormed)
    (fits : changes.Fits base key standing)
    (isTree : (changes.place key standing).overlay.IsTree) :
    (changes.place key standing).Sound base := by
  refine (fits.enters.sound_place_iff sound fits.notReference isTree).mpr ?_
  intro child isChild
  by_contra left
  obtain ⟨absent, kept⟩ := not_or.mp left
  obtain ⟨-, absent⟩ := absent_of_place (Layout.not_holds_iff.mp absent)
  exact fits.not_readsBack (wellFormed.isTree.parent_holds isChild)
    (sound.covered child key absent kept isChild)

/-- A node that fits keeps changes intact. -/
theorem Intact.place (intact : changes.Intact base) (fits : changes.Fits base key standing) :
    (changes.place key standing).Intact base := by
  intro other parent back isChild
  obtain ⟨different, back⟩ := readsBack_place_cases fits.notReference back
  obtain ⟨absent, kept⟩ := intact other parent back isChild
  refine ⟨?_, kept⟩
  have apart : key ≠ other := by
    rintro rfl
    exact fits.not_readsBack isChild.holds (.inr ⟨absent, kept⟩)
  rw [overlay_place, Layout.place_of_ne apart, absent]

end Changes

namespace Buffer

variable {base : Store C} {changes next last : Changes C} {buffer after : Buffer C}
  {key parent : Key} {payload : Payload C}

/-- To unfold a buffer keeps its changes intact. -/
theorem Unfolded.intact (unfolded : Unfolded base changes after next)
    (intact : changes.Intact base) : next.Intact base := by
  intro key parent back isChild
  obtain ⟨-, kept⟩ := intact key parent (unfolded.readsBack parent back) isChild
  rw [← unfolded.deleted_eq] at kept
  refine ⟨?_, kept⟩
  rw [← Layout.not_holds_iff]
  exact fun holds => unfolded.sound.exclusive key parent holds kept isChild back

/-- Over an overlay with a node in it, the question of an empty overlay does not arise. -/
theorem nonempty_of_holds (holds : changes.overlay.Holds key)
    (empty : ∀ key, changes.overlay key = none) : ∀ key, changes.shown base key = none :=
  absurd (empty key) (Layout.holds_iff_ne_none.mp holds)

section Preparation

variable (records : buffer.Records base changes) (sound : changes.Sound base)
  (wellFormed : base.WellFormed) (allContent : base.AllContent)

include records in
/-- A payload that resolves passes the check. -/
theorem result_checkPayload (resolves : base.Resolves payload) :
    (buffer.checkPayload payload).result = .ok () := by
  have id : buffer.backingTree.id = base.id := congrArg Tree.id records.backingTree
  rw [checkPayload]
  cases same : payload.reference? with
  | none => rfl
  | some reference =>
      obtain ⟨sameTree, holds⟩ := resolves reference same
      have require : decide (reference.tree = buffer.backingTree.id) = true :=
        decide_eq_true (sameTree.trans id.symm)
      have contains : (buffer.backingTree.contains reference.key).result = .ok true := by
        rw [records.backingTree]
        exact congrArg Except.ok (Store.contains_iff_holds.mpr holds)
      apply (Read.result_bind_of_ok (Read.result_require_of_true require)).trans
      exact (Read.result_bind_of_ok contains).trans (Read.result_require_of_true rfl)

include records in
/-- A payload that passed the check resolves. -/
theorem resolves_of_checkPayload (ok : (buffer.checkPayload payload).result = .ok ()) :
    base.Resolves payload := by
  intro reference same
  have id : buffer.backingTree.id = base.id := congrArg Tree.id records.backingTree
  rw [checkPayload, same] at ok
  obtain ⟨⟨⟩, sameTree, ok⟩ := Read.result_bind_eq_ok ok
  obtain ⟨contained, contains, ok⟩ := Read.result_bind_eq_ok ok
  obtain rfl := Read.result_require_eq_ok ok
  refine ⟨(of_decide_eq_true (Read.result_require_eq_ok sameTree)).trans id, ?_⟩
  rw [records.backingTree] at contains
  exact Store.contains_iff_holds.mp (Except.ok.inj contains)

include records sound wellFormed allContent in
/-- A parent that is shown comes into the overlay with its children. -/
theorem unfolds_prepareParent (holds : (changes.shown base).Holds parent) :
    ∃ after next, (prepareParent (some parent)).effect buffer = (.ok (), after) ∧
      Unfolded base changes after next ∧ next.overlay.Holds parent ∧ ¬ next.IsLazy parent ∧
      Opens changes next fun other => other = parent ∨ base.layout.Within other parent := by
  obtain ⟨middle, next, reached, unfolded, inside, opens⟩ :=
    exists_reach records sound wellFormed allContent holds
  obtain ⟨after, last, expanded, unfolded', notLazy, opens'⟩ :=
    exists_expandLazy unfolded.records unfolded.sound wellFormed allContent parent
  refine ⟨after, last, ?_, unfolded.trans unfolded', unfolded'.holds parent inside, notLazy,
    (opens.mono fun other opened => .inr opened.2.2).trans (opens'.mono fun other same => .inl same.symm)⟩
  rw [prepareParent, Edit.effect_bind_of_ok reached, expanded]

include records in
theorem effect_prepareParent_of_absent (absent : changes.shown base parent = none) :
    (prepareParent (some parent)).effect buffer = (.error (.nodeNotFound parent), buffer) := by
  rw [prepareParent, Edit.effect_bind_of_error (effect_reach_of_absent records absent)]

include records sound wellFormed allContent in
/-- A backing key is reached if it is shown. -/
theorem unfolds_reachBacked (kept : ¬ changes.deleted key) (absent : changes.overlay key = none) :
    ∃ after next, (reachBacked key).effect buffer = (.ok (), after) ∧
      Unfolded base changes after next ∧
      (next.overlay.Holds key ∨ changes.shown base key = none ∧ next = changes) ∧
      Opens changes next fun other => other ≠ key ∧ base.layout.Within other key := by
  rw [reachBacked, Edit.effect_current_bind]
  cases there : base.contains key with
  | true =>
      have contains : (buffer.backingTree.contains key).result = .ok true := by
        rw [records.backingTree]
        exact congrArg Except.ok there
      obtain ⟨standing, found⟩ := Store.contains_iff_holds.mp there
      obtain ⟨after, next, reached, unfolded, inside, opens⟩ :=
        exists_reach records sound wellFormed allContent
          ⟨standing, (Changes.shown_of_kept absent kept).trans found⟩
      exact ⟨after, next, (Edit.effect_liftM_bind contains).trans reached, unfolded, .inl inside,
        opens.mono fun other opened => opened.2⟩
  | false =>
      have contains : (buffer.backingTree.contains key).result = .ok false := by
        rw [records.backingTree]
        exact congrArg Except.ok there
      refine ⟨buffer, changes, Edit.effect_liftM_bind contains, .refl records sound, .inr ⟨?_, rfl⟩,
        .refl changes _⟩
      rw [Changes.shown_of_kept absent kept, Store.contains_eq_false_iff.mp there]

include records sound wellFormed allContent in
/-- A key that is asked for comes into the overlay if it is shown. -/
theorem unfolds_prepareMoved (key : Key) :
    ∃ existed after next, (prepareMoved (some key)).effect buffer = (.ok existed, after) ∧
      Unfolded base changes after next ∧
      (existed = true ∧ next.overlay.Holds key ∨
        existed = false ∧ changes.shown base key = none) ∧
      Opens changes next fun other => other ≠ key ∧ base.layout.Within other key := by
  rw [prepareMoved, Edit.effect_current_bind]
  by_cases onlyBacked : changes.overlay key = none ∧ ¬ changes.deleted key
  · obtain ⟨absent, kept⟩ := onlyBacked
    have condition : (!buffer.overlay.contains key && !buffer.deleted.contains key) = true := by
      rw [Bool.and_eq_true, Bool.not_eq_true', Bool.not_eq_true',
        ← Bool.not_eq_true (buffer.deleted.contains key), records.contains_overlay_eq_false,
        records.contains_deleted]
      exact ⟨absent, kept⟩
    obtain ⟨after, next, reached, unfolded, inside, opens⟩ :=
      unfolds_reachBacked records sound wellFormed allContent kept absent
    refine ⟨after.overlay.contains key, after, next, ?_, unfolded, ?_, opens⟩
    · rw [condition]
      exact Edit.effect_bind_of_ok reached
    · rcases inside with holds | ⟨gone, rfl⟩
      · exact .inl ⟨unfolded.records.contains_overlay.mpr holds, holds⟩
      · exact .inr ⟨unfolded.records.contains_overlay_eq_false.mpr absent, gone⟩
  · have condition : (!buffer.overlay.contains key && !buffer.deleted.contains key) = false := by
      rw [← Bool.not_eq_true, Bool.and_eq_true, Bool.not_eq_true', Bool.not_eq_true',
        ← Bool.not_eq_true (buffer.deleted.contains key), records.contains_overlay_eq_false,
        records.contains_deleted]
      exact onlyBacked
    refine ⟨buffer.overlay.contains key, buffer, changes, ?_, .refl records sound, ?_, .refl changes _⟩
    · rw [condition]
      rfl
    · cases found : changes.overlay key with
      | some standing =>
          exact .inl ⟨records.contains_overlay.mpr ⟨standing, found⟩, ⟨standing, found⟩⟩
      | none =>
          refine .inr ⟨records.contains_overlay_eq_false.mpr found, ?_⟩
          exact Changes.shown_of_deleted found (not_not.mp fun kept => onlyBacked ⟨found, kept⟩)

include records sound wellFormed allContent in
/-- The node that an insertion moves, if there is one, comes into the overlay with its children. -/
theorem unfolds_moved (key : Key) :
    ∃ existed middle after next, (prepareMoved (some key)).effect buffer = (.ok existed, middle) ∧
      (Edit.when existed ([key].forM expandLazy)).effect middle = (.ok ⟨⟩, after) ∧
      Unfolded base changes after next ∧
      (existed = true ∧ next.overlay.Holds key ∧ ¬ next.IsLazy key ∨
        existed = false ∧ changes.shown base key = none) ∧
      Opens changes next fun other => other = key ∨ base.layout.Within other key := by
  obtain ⟨existed, middle, next, prepared, unfolded, inside, opens⟩ :=
    unfolds_prepareMoved records sound wellFormed allContent key
  have opens : Opens changes next fun other => other = key ∨ base.layout.Within other key :=
    opens.mono fun other opened => .inr opened.2
  rcases inside with ⟨rfl, holds⟩ | ⟨rfl, gone⟩
  · obtain ⟨after, last, expanded, unfolded', notLazy, opens'⟩ :=
      exists_expandLazy unfolded.records unfolded.sound wellFormed allContent key
    refine ⟨true, middle, after, last, prepared, ?_, unfolded.trans unfolded',
      .inl ⟨rfl, unfolded'.holds key holds, notLazy⟩,
      opens.trans (opens'.mono fun other same => .inl same.symm)⟩
    exact (Edit.effect_forM_cons_of_ok expanded).trans rfl
  · exact ⟨false, middle, middle, next, prepared, rfl, unfolded, .inr ⟨rfl, gone⟩, opens⟩

end Preparation

/-- What an insertion does once everything is in the overlay. -/
def placeNode (parent : Option Key) (placement : Placement) (payload : Payload C) (existed : Bool) :
    Edit (Buffer C) Key := do
  let key ← insertOverlay parent placement payload
  Edit.when (!existed) (rejectTakenKey key payload.isTreeReference)
  Edit.when payload.isTreeReference (restore key)
  return key

/-- An insertion is its preparation and then the placing of the node. -/
theorem effect_insert {parent : Option Key} {placement : Placement} {existed : Bool}
    {first second third : Buffer C}
    (checked : (buffer.checkPayload payload).result = .ok ())
    (stored : (checkInsertedReference (explicitKey parent placement) payload).result = .ok ())
    (prepared : (prepareParent parent).effect buffer = (.ok (), first))
    (moved : (prepareMoved (explicitKey parent placement)).effect first = (.ok existed, second))
    (expanded : (Edit.when (existed && !payload.isTreeReference)
      ((explicitKey parent placement).toList.forM expandLazy)).effect second = (.ok ⟨⟩, third)) :
    (insert parent placement payload).effect buffer =
      (placeNode parent placement payload existed).effect third := by
  rw [insert, Edit.effect_current_bind]
  refine (Edit.effect_liftM_bind checked).trans ((Edit.effect_liftM_bind stored).trans ?_)
  refine (Edit.effect_bind_of_ok prepared).trans ((Edit.effect_bind_of_ok moved).trans ?_)
  exact Edit.effect_bind_of_ok expanded

/-- An insertion fails as the preparation of its parent does. -/
theorem effect_insert_of_error {parent : Option Key} {placement : Placement} {error : TreeError}
    (checked : (buffer.checkPayload payload).result = .ok ())
    (stored : (checkInsertedReference (explicitKey parent placement) payload).result = .ok ())
    (failed : (prepareParent parent).effect buffer = (.error error, after)) :
    (insert parent placement payload).effect buffer = (.error error, after) := by
  rw [insert, Edit.effect_current_bind]
  refine (Edit.effect_liftM_bind checked).trans ((Edit.effect_liftM_bind stored).trans ?_)
  exact Edit.effect_bind_of_error failed

/-- A placing fails as the overlay does. -/
theorem effect_placeNode_of_error {parent : Option Key} {placement : Placement} {existed : Bool}
    {error : TreeError}
    (failed : (insertOverlay parent placement payload).effect buffer = (.error error, after)) :
    (placeNode parent placement payload existed).effect buffer = (.error error, after) := by
  rw [placeNode, Edit.effect_bind_of_error failed]

/-- A new key that was not shown before is not rejected. -/
theorem effect_rejectTakenKey_of_absent (records : buffer.Records base changes)
    (gone : changes.deleted key ∨ base.layout key = none) (isTreeReference : Bool) :
    (rejectTakenKey key isTreeReference).effect buffer = (.ok (), buffer) := by
  rw [rejectTakenKey, Edit.effect_current_bind]
  have contains : (buffer.backingTree.contains key).result = .ok (base.contains key) := by
    rw [records.backingTree]
    rfl
  have condition : (base.contains key && !buffer.deleted.contains key && !isTreeReference) =
      false := by
    rcases gone with deleted | absent
    · rw [records.contains_deleted.mpr deleted]
      simp
    · rw [Store.contains_eq_false_iff.mpr absent]
      rfl
  refine (Edit.effect_liftM_bind contains).trans ?_
  rw [Edit.effect_when, condition]
  rfl

/-- A node with content is placed under a key that was there or that nothing was shown under. -/
theorem effect_placeNode {parent : Option Key} {placement : Placement} {existed : Bool}
    {standing : Standing C}
    (placed : (insertOverlay parent placement payload).effect buffer = (.ok key, after))
    (records : after.Records base (changes.place key standing))
    (notReference : payload.isTreeReference = false)
    (fresh : existed = false → changes.shown base key = none) :
    (placeNode parent placement payload existed).effect buffer = (.ok key, after) := by
  rw [placeNode, Edit.effect_bind_of_ok placed, notReference]
  cases existed with
  | true => rfl
  | false =>
      have gone := (Changes.shown_eq_none_iff.mp (fresh rfl)).2
      exact (Edit.effect_bind_of_ok (effect_rejectTakenKey_of_absent records gone false)).trans rfl

end Buffer

end VersionedTrees
