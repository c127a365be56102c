import VersionedTrees.Proofs.Buffer.Coherence
import VersionedTrees.Proofs.Buffer.Steps

/-!
# Expanding lazy nodes

Bringing nodes into the overlay changes what a buffer keeps, not what it shows. `Buffer.Unfolded` says
what becomes of the changes then: the overlay has all that it had, nodes with content as they were,
and fewer nodes are read from the base. To expand a lazy node, which gives it the payload of the base
and lazy children, unfolds a buffer (`Buffer.unfolds_expandLazy`).
-/

namespace VersionedTrees

variable {C : Type}

namespace Changes

variable {base : Store C} {changes : Changes C} {key parent other : Key} {standing : Standing C}

open Classical in
/-- Brings keys of the base that are shown into the overlay, as lazy nodes below a parent. -/
noncomputable def adopt (base : Store C) (changes : Changes C) (parent : Key) (keys : List Key) :
    Changes C :=
  { changes with
    overlay := fun key =>
      if key ∈ keys ∧ changes.overlay key = none ∧ ¬ changes.deleted key then
        some ⟨some parent, .treeReference ⟨base.id, key⟩⟩
      else
        changes.overlay key }

theorem adopt_nil (changes : Changes C) (parent : Key) : changes.adopt base parent [] = changes := by
  simp [adopt]

@[simp] theorem deleted_adopt (changes : Changes C) (parent : Key) (keys : List Key) :
    (changes.adopt base parent keys).deleted = changes.deleted := rfl

theorem overlay_adopt_of_new {keys : List Key} (inside : key ∈ keys)
    (absent : changes.overlay key = none) (kept : ¬ changes.deleted key) :
    (changes.adopt base parent keys).overlay key =
      some ⟨some parent, .treeReference ⟨base.id, key⟩⟩ :=
  if_pos ⟨inside, absent, kept⟩

theorem overlay_adopt_of_old {keys : List Key}
    (old : ¬ (key ∈ keys ∧ changes.overlay key = none ∧ ¬ changes.deleted key)) :
    (changes.adopt base parent keys).overlay key = changes.overlay key :=
  if_neg old

/-- One new key is placed. -/
theorem adopt_of_new (absent : changes.overlay key = none) (kept : ¬ changes.deleted key) :
    changes.adopt base parent [key] =
      changes.place key ⟨some parent, .treeReference ⟨base.id, key⟩⟩ := by
  simp only [adopt, place, Changes.mk.injEq, and_true]
  funext other
  by_cases same : key = other
  · subst same
    rw [Layout.place_self, if_pos ⟨List.mem_singleton_self key, absent, kept⟩]
  · rw [Layout.place_of_ne same, if_neg]
    exact fun both => same (List.mem_singleton.mp both.1).symm

/-- One key that is deleted or there already is left alone. -/
theorem adopt_of_old (old : ¬ (changes.overlay key = none ∧ ¬ changes.deleted key)) :
    changes.adopt base parent [key] = changes := by
  simp only [adopt]
  congr 1
  funext other
  rw [if_neg]
  rintro ⟨inside, both⟩
  rw [List.mem_singleton.mp inside] at both
  exact old both

/-- Keys are adopted one after the other. -/
theorem adopt_cons (changes : Changes C) (parent key : Key) (keys : List Key) :
    changes.adopt base parent (key :: keys) =
      (changes.adopt base parent [key]).adopt base parent keys := by
  have same : ∀ other, (changes.adopt base parent (key :: keys)).overlay other =
      ((changes.adopt base parent [key]).adopt base parent keys).overlay other := by
    intro other
    by_cases new : changes.overlay other = none ∧ ¬ changes.deleted other
    · by_cases first : other = key
      · subst first
        have there : (changes.adopt base parent [other]).overlay other = _ :=
          overlay_adopt_of_new (List.mem_singleton_self other) new.1 new.2
        rw [overlay_adopt_of_new List.mem_cons_self new.1 new.2, overlay_adopt_of_old, there]
        rw [there]
        exact fun both => nomatch both.2.1
      · have absent : (changes.adopt base parent [key]).overlay other = none := by
          rw [overlay_adopt_of_old fun both => first (List.mem_singleton.mp both.1), new.1]
        by_cases inside : other ∈ keys
        · rw [overlay_adopt_of_new (List.mem_cons_of_mem _ inside) new.1 new.2,
            overlay_adopt_of_new inside absent new.2]
        · rw [overlay_adopt_of_old fun both => inside both.1, absent, overlay_adopt_of_old, new.1]
          exact fun both => (List.mem_cons.mp both.1).elim first inside
    · have old : (changes.adopt base parent [key]).overlay other = changes.overlay other :=
        overlay_adopt_of_old fun both => new both.2
      rw [overlay_adopt_of_old fun both => new both.2, overlay_adopt_of_old, old]
      rw [old]
      exact fun both => new both.2
  exact Changes.ext (funext same) rfl

end Changes

namespace Buffer

variable {base : Store C} {changes next last : Changes C} {buffer after : Buffer C}
  {key parent : Key} {payload : Payload C} {above : Option Key}

/-- A lazy child is added unless it is deleted or there already. -/
theorem Records.addLazyChild (records : buffer.Records base changes)
    (holds : changes.overlay.Holds parent) (child : Key) :
    ∃ after, (addLazyChild parent child).effect buffer = (.ok (), after) ∧
      after.Records base (changes.adopt base parent [child]) := by
  rw [Buffer.addLazyChild, Edit.effect_current_bind, Edit.effect_when]
  have id : buffer.backingTree.id = base.id := congrArg Tree.id records.backingTree
  by_cases new : changes.overlay child = none ∧ ¬ changes.deleted child
  · have notThere := records.contains_overlay_eq_false.mpr new.1
    have notDeleted : buffer.deleted.contains child = false := by
      rw [← Bool.not_eq_true, records.contains_deleted]
      exact new.2
    obtain ⟨after, ok, records'⟩ :=
      records.insertOverlay_new holds new.1 (.treeReference ⟨base.id, child⟩)
    refine ⟨after, ?_, ?_⟩
    · rw [notThere, notDeleted]
      change Edit.effect (Buffer.addLazy (some parent) child) buffer = _
      rw [Buffer.addLazy, Edit.effect_current_bind, lazyPayload, id, Edit.effect_bind_of_ok ok]
      rfl
    · rwa [Changes.adopt_of_new new.1 new.2]
  · refine ⟨buffer, if_neg fun both => ?_, ?_⟩
    · rw [Bool.and_eq_true, Bool.not_eq_true', Bool.not_eq_true', ← Bool.not_eq_true,
        records.contains_deleted, records.contains_overlay_eq_false] at both
      exact new both.symm
    · rwa [Changes.adopt_of_old new]

theorem Records.addLazyChildren (records : buffer.Records base changes)
    (holds : changes.overlay.Holds parent) (keys : List Key) :
    ∃ after, (keys.forM (Buffer.addLazyChild parent)).effect buffer = (.ok ⟨⟩, after) ∧
      after.Records base (changes.adopt base parent keys) := by
  induction keys generalizing buffer changes with
  | nil => exact ⟨buffer, rfl, by rwa [Changes.adopt_nil]⟩
  | cons key keys inductionHypothesis =>
      obtain ⟨middle, ok, records'⟩ := records.addLazyChild holds key
      have holds' : (changes.adopt base parent [key]).overlay.Holds parent := by
        obtain ⟨standing, found⟩ := holds
        refine ⟨standing, (Changes.overlay_adopt_of_old fun both => ?_).trans found⟩
        rw [found] at both
        exact nomatch both.2.1
      obtain ⟨after, rest, records''⟩ := inductionHypothesis records' holds'
      refine ⟨after, by rw [Edit.effect_forM_cons_of_ok ok, rest], ?_⟩
      rwa [Changes.adopt_cons]

/-! ## What unfolding leaves alone -/

/-- A buffer shows what it showed, and more of it is in the overlay. -/
structure Unfolded (base : Store C) (changes : Changes C) (after : Buffer C) (next : Changes C) :
    Prop where
  records : after.Records base next
  sound : next.Sound base
  shown_eq : next.shown base = changes.shown base
  deleted_eq : next.deleted = changes.deleted
  holds : ∀ key, changes.overlay.Holds key → next.overlay.Holds key
  keeps : ∀ key standing, changes.overlay key = some standing → ¬ changes.IsLazy key →
    next.overlay key = some standing
  readsBack : ∀ key, next.ReadsBack key → changes.ReadsBack key

theorem Unfolded.refl (records : buffer.Records base changes) (sound : changes.Sound base) :
    Unfolded base changes buffer changes :=
  ⟨records, sound, rfl, rfl, fun _ holds => holds, fun _ _ found _ => found, fun _ back => back⟩

/-- An overlay node with content stays one. -/
theorem Unfolded.not_isLazy (unfolded : Unfolded base changes after next)
    (holds : changes.overlay.Holds key) (notLazy : ¬ changes.IsLazy key) : ¬ next.IsLazy key := by
  obtain ⟨standing, found⟩ := holds
  have kept := unfolded.keeps key standing found notLazy
  rintro ⟨above, reference, found'⟩
  rw [kept, ← found] at found'
  exact notLazy ⟨above, reference, found'⟩

theorem Unfolded.trans {middle : Buffer C} (first : Unfolded base changes middle next)
    (second : Unfolded base next after last) : Unfolded base changes after last where
  records := second.records
  sound := second.sound
  shown_eq := second.shown_eq.trans first.shown_eq
  deleted_eq := second.deleted_eq.trans first.deleted_eq
  holds key holds := second.holds key (first.holds key holds)
  keeps key standing found notLazy :=
    second.keeps key standing (first.keeps key standing found notLazy)
      (first.not_isLazy ⟨standing, found⟩ notLazy)
  readsBack key back := first.readsBack key (second.readsBack key back)

/-- If an empty overlay says that nothing is shown, it goes on doing so. -/
theorem Unfolded.nonempty (unfolded : Unfolded base changes after next)
    (nonempty : (∀ key, changes.overlay key = none) → ∀ key, changes.shown base key = none)
    (empty : ∀ key, next.overlay key = none) : ∀ key, next.shown base key = none := by
  rw [unfolded.shown_eq]
  refine nonempty fun key => ?_
  rw [← Layout.not_holds_iff]
  exact fun holds => Layout.holds_iff_ne_none.mp (unfolded.holds key holds) (empty key)

/-- The keys that are read from the base first, and after an edit no more, are among some. -/
def Opens (changes next : Changes C) (opened : Key → Prop) : Prop :=
  ∀ key, changes.ReadsBack key → ¬ next.ReadsBack key → opened key

theorem Opens.refl (changes : Changes C) (opened : Key → Prop) : Opens changes changes opened :=
  fun _ back gone => absurd back gone

theorem Opens.trans {opened : Key → Prop} (first : Opens changes next opened)
    (second : Opens next last opened) : Opens changes last opened := by
  intro key back gone
  by_cases still : next.ReadsBack key
  · exact second key still gone
  · exact first key back still

theorem Opens.mono {opened wider : Key → Prop} (opens : Opens changes next opened)
    (within : ∀ key, opened key → wider key) : Opens changes next wider :=
  fun key back gone => within key (opens key back gone)

end Buffer

/-! ## Expanding lazy nodes -/

namespace Changes

variable {base : Store C} {changes : Changes C} {key parent other : Key} {standing : Standing C}
  {above : Option Key} {reference : Reference}

/-- Gives a lazy node the payload of the base and lazy children. -/
noncomputable def expand (base : Store C) (changes : Changes C) (key : Key) (above : Option Key)
    (payload : Payload C) : Changes C :=
  (changes.place key ⟨above, payload⟩).adopt base key (base.tree.childList key)

section Expand

variable (wellFormed : base.WellFormed) (allContent : base.AllContent)
  (sound : changes.Sound base) (found : changes.overlay key = some ⟨above, .treeReference reference⟩)
  (there : base.layout key = some standing)

/-- The keys that an expansion brings into the overlay. -/
def Adopted (base : Store C) (changes : Changes C) (key other : Key) : Prop :=
  base.layout.IsChild other key ∧ changes.overlay other = none ∧ ¬ changes.deleted other

include wellFormed found in
theorem adopted_iff : Adopted base changes key other ↔
    other ∈ base.tree.childList key ∧
      (changes.place key ⟨above, standing.payload⟩).overlay other = none ∧
      ¬ (changes.place key ⟨above, standing.payload⟩).deleted other := by
  rw [Adopted, wellFormed.listed.mem_iff, overlay_place, deleted_place]
  by_cases same : key = other
  · subst same
    simp [found]
  · rw [Layout.place_of_ne same]

include wellFormed found in
theorem overlay_expand_of_adopted (adopted : Adopted base changes key other) :
    (changes.expand base key above standing.payload).overlay other =
      some ⟨some key, .treeReference ⟨base.id, other⟩⟩ := by
  obtain ⟨inside, absent, kept⟩ := (adopted_iff wellFormed found).mp adopted
  exact overlay_adopt_of_new inside absent kept

include wellFormed found in
theorem overlay_expand_of_not_adopted (old : ¬ Adopted base changes key other) :
    (changes.expand base key above standing.payload).overlay other =
      changes.overlay.place key ⟨above, standing.payload⟩ other :=
  overlay_adopt_of_old fun both => old ((adopted_iff wellFormed found).mpr both)

include wellFormed found in
theorem overlay_expand_self :
    (changes.expand base key above standing.payload).overlay key =
      some ⟨above, standing.payload⟩ := by
  rw [overlay_expand_of_not_adopted wellFormed found, Layout.place_self]
  intro adopted
  have absent := adopted.2.1
  rw [found] at absent
  cases absent

include wellFormed found in
theorem overlay_expand_of_ne (different : key ≠ other)
    (old : ¬ Adopted base changes key other) :
    (changes.expand base key above standing.payload).overlay other = changes.overlay other := by
  rw [overlay_expand_of_not_adopted wellFormed found old, Layout.place_of_ne different]

include wellFormed found in
theorem overlay_expand_of_found {standing' : Standing C} (different : key ≠ other)
    (found' : changes.overlay other = some standing') :
    (changes.expand base key above standing.payload).overlay other = some standing' := by
  rw [overlay_expand_of_ne wellFormed found different, found']
  intro adopted
  have absent := adopted.2.1
  rw [found'] at absent
  cases absent

include wellFormed allContent found there in
/-- The expanded node is the one that is not read from the base any more. -/
theorem readsBack_expand_iff :
    (changes.expand base key above standing.payload).ReadsBack other ↔
      key ≠ other ∧ changes.ReadsBack other := by
  by_cases same : key = other
  · subst same
    obtain ⟨value, content⟩ := allContent.exists_content there
    have self : (changes.expand base key above standing.payload).overlay key =
        some ⟨above, standing.payload⟩ := overlay_expand_self wellFormed found
    rw [content] at self
    simp only [ne_eq, not_true_eq_false, false_and, iff_false]
    rintro (⟨_, _, found'⟩ | ⟨absent, -⟩)
    · rw [content, self] at found'
      cases found'
    · rw [content, self] at absent
      cases absent
  · rw [and_iff_right same]
    by_cases adopted : Adopted base changes key other
    · exact iff_of_true (.inl ⟨_, _, overlay_expand_of_adopted wellFormed found adopted⟩)
        (.inr adopted.2)
    · simp only [ReadsBack, IsLazy, overlay_expand_of_ne wellFormed found same adopted]
      rfl

include wellFormed found there in
/-- An expansion is not seen. -/
theorem shown_expand (admits : base.Admits key (.treeReference reference))
    (content : standing.payload.isReference = false) :
    (changes.expand base key above standing.payload).shown base = changes.shown base := by
  obtain ⟨rfl, -⟩ := admits
  funext other
  by_cases same : key = other
  · subst same
    rw [shown_of_overlay (overlay_expand_self wellFormed found), shown_of_overlay found,
      Store.lend_treeReference there, Store.lend_of_not_isReference base content]
  · by_cases adopted : Adopted base changes key other
    · rw [shown_of_overlay (overlay_expand_of_adopted wellFormed found adopted),
        shown_of_kept adopted.2.1 adopted.2.2]
      obtain ⟨payload, child⟩ := adopted.1
      rw [child, Store.lend_treeReference child]
    · rw [shown, shown, overlay_expand_of_ne wellFormed found same adopted]
      rfl

include wellFormed found in
/-- What is not in the overlay after an expansion was not there before, and did not come in. -/
theorem absent_of_expand
    (absent : (changes.expand base key above standing.payload).overlay other = none) :
    key ≠ other ∧ changes.overlay other = none ∧ ¬ Adopted base changes key other := by
  have different : key ≠ other := by
    rintro rfl
    rw [overlay_expand_self wellFormed found] at absent
    cases absent
  have notAdopted : ¬ Adopted base changes key other := by
    intro adopted
    rw [overlay_expand_of_adopted wellFormed found adopted] at absent
    cases absent
  rw [overlay_expand_of_ne wellFormed found different notAdopted] at absent
  exact ⟨different, absent, notAdopted⟩

include wellFormed allContent found there in
/-- An expansion puts the content of the base into the overlay, and references to base nodes. -/
theorem admits_expand {standing' : Standing C} (valid : changes.Valid base)
    (found' : (changes.expand base key above standing.payload).overlay other = some standing') :
    base.Admits other standing'.payload := by
  by_cases same : key = other
  · subst same
    rw [overlay_expand_self wellFormed found, Option.some.injEq] at found'
    obtain ⟨value, content⟩ := allContent.exists_content there
    rw [← found', content]
    trivial
  · by_cases adopted : Adopted base changes key other
    · rw [overlay_expand_of_adopted wellFormed found adopted, Option.some.injEq] at found'
      rw [← found']
      exact ⟨rfl, adopted.1.holds⟩
    · rw [overlay_expand_of_ne wellFormed found same adopted] at found'
      exact valid.admits other standing' found'

include wellFormed allContent found there in
/-- The nodes that are lazy after an expansion have no children in the overlay. -/
theorem leaf_expand {child : Key} (valid : changes.Valid base)
    (isLazy : (changes.expand base key above standing.payload).IsLazy other) :
    ¬ (changes.expand base key above standing.payload).overlay.IsChild child other := by
  rintro ⟨payload, found'⟩
  obtain ⟨notKey, back⟩ :=
    (readsBack_expand_iff wellFormed allContent found there).mp (.inl isLazy)
  by_cases same : key = child
  · -- the parent of the expanded node was not among the keys that came in
    subst same
    rw [overlay_expand_self wellFormed found, Option.some.injEq, Standing.mk.injEq] at found'
    have isChild : changes.overlay.IsChild key other := ⟨_, by rw [found, found'.1]⟩
    have holds := valid.isTree.parent_holds isChild
    have notAdopted : ¬ Adopted base changes key other :=
      fun adopted => Layout.holds_iff_ne_none.mp holds adopted.2.1
    obtain ⟨above', reference', lazy⟩ := isLazy
    rw [overlay_expand_of_ne wellFormed found notKey notAdopted] at lazy
    exact valid.leaf other key ⟨above', reference', lazy⟩ isChild
  · by_cases adopted : Adopted base changes key child
    · rw [overlay_expand_of_adopted wellFormed found adopted, Option.some.injEq,
        Standing.mk.injEq] at found'
      exact notKey (Option.some.inj found'.1)
    · rw [overlay_expand_of_ne wellFormed found same adopted] at found'
      have isChild : changes.overlay.IsChild child other := ⟨payload, found'⟩
      rcases back with isLazy | ⟨absent, -⟩
      · exact valid.leaf other child isLazy isChild
      · exact Layout.holds_iff_ne_none.mp (valid.isTree.parent_holds isChild) absent

include wellFormed allContent found there in
/-- An expansion keeps changes valid. -/
theorem valid_expand (valid : changes.Valid base)
    (isTree : (changes.expand base key above standing.payload).overlay.IsTree) :
    (changes.expand base key above standing.payload).Valid base where
  isTree := isTree
  admits _ _ found' := admits_expand wellFormed allContent found there valid found'
  leaf _ _ isLazy := leaf_expand wellFormed allContent found there valid isLazy

include wellFormed allContent sound found there in
/-- An expansion keeps changes sound. -/
theorem sound_expand
    (isTree : (changes.expand base key above standing.payload).overlay.IsTree) :
    (changes.expand base key above standing.payload).Sound base where
  toValid := valid_expand wellFormed allContent found there sound.toValid isTree
  covered other parent absent kept isChild := by
    obtain ⟨-, absent, notAdopted⟩ := absent_of_expand wellFormed found absent
    refine (readsBack_expand_iff wellFormed allContent found there).mpr
      ⟨?_, sound.covered other parent absent kept isChild⟩
    rintro rfl
    exact notAdopted ⟨isChild, absent, kept⟩
  rootCovered other absent kept isRoot := by
    obtain ⟨-, absent, -⟩ := absent_of_expand wellFormed found absent
    have nothing := sound.rootCovered other absent kept isRoot key
    rw [found] at nothing
    cases nothing
  exclusive other parent holds kept isChild back := by
    obtain ⟨different, back⟩ := (readsBack_expand_iff wellFormed allContent found there).mp back
    refine sound.exclusive other parent ?_ kept isChild back
    rw [Layout.holds_iff_ne_none]
    intro absent
    have notKey : key ≠ other := by
      rintro rfl
      rw [found] at absent
      cases absent
    -- what came in stands below the expanded node
    have notAdopted : ¬ Adopted base changes key other :=
      fun adopted => different (adopted.1.parent_unique isChild)
    rw [Layout.holds_iff_ne_none, overlay_expand_of_ne wellFormed found notKey notAdopted] at holds
    exact holds absent

end Expand

end Changes

namespace Buffer

variable {base : Store C} {changes next : Changes C} {buffer after : Buffer C} {key parent : Key}

section Unfolding

variable (records : buffer.Records base changes) (sound : changes.Sound base)
  (wellFormed : base.WellFormed) (allContent : base.AllContent)

include records in
theorem effect_expandLazy_of_not_isLazy (admitted : changes.Admitted base)
    (notLazy : ¬ changes.IsLazy key) : (expandLazy key).effect buffer = (.ok (), buffer) := by
  rw [expandLazy, Edit.effect_current_bind, records.isLazy_eq_false (admitted key) notLazy]
  rfl

include records wellFormed in
/-- A lazy node gets the payload that it has in the base, and its base children as lazy ones. -/
theorem Records.expandLazy {above : Option Key} {reference : Reference} {standing : Standing C}
    (admitted : changes.Admitted base)
    (found : changes.overlay key = some ⟨above, .treeReference reference⟩)
    (there : base.layout key = some standing) : ∃ after,
      (expandLazy key).effect buffer = (.ok (), after) ∧
      after.Records base (changes.expand base key above standing.payload) := by
  obtain ⟨middle, updated, records'⟩ := records.updateOverlay found standing.payload
  have holds : (changes.place key ⟨above, standing.payload⟩).overlay.Holds key :=
    ⟨_, Layout.place_self _ _ _⟩
  obtain ⟨after, adopted, records''⟩ := records'.addLazyChildren holds (base.tree.childList key)
  have payload : (buffer.backingTree.payload key).result = .ok standing.payload := by
    rw [records.backingTree]
    exact result_payload_of_found (result_node_base there)
  have children : (buffer.backingTree.children key).result = .ok (base.tree.childList key) := by
    rw [records.backingTree]
    exact wellFormed.shows.result_children ⟨_, there⟩
  refine ⟨after, ?_, records''⟩
  rw [Buffer.expandLazy, Edit.effect_current_bind,
    (records.isLazy_iff (admitted key)).mpr ⟨above, reference, found⟩]
  refine (Edit.effect_liftM_bind payload).trans ((Edit.effect_bind_of_ok updated).trans ?_)
  exact (Edit.effect_liftM_bind children).trans (Edit.effect_bind_of_ok adopted)

include records sound wellFormed allContent in
/-- To expand a node unfolds the buffer, and opens no other node; afterwards the node is not lazy. -/
theorem exists_expandLazy (key : Key) :
    ∃ after next, (expandLazy key).effect buffer = (.ok (), after) ∧
      Unfolded base changes after next ∧ ¬ next.IsLazy key ∧ Opens changes next (key = ·) := by
  by_cases isLazy : changes.IsLazy key
  case neg =>
    exact ⟨buffer, changes, effect_expandLazy_of_not_isLazy records sound.admits isLazy,
      .refl records sound, isLazy, fun _ back gone => absurd back gone⟩
  case pos =>
    obtain ⟨above, reference, found⟩ := isLazy
    have admits := sound.admits key _ found
    obtain ⟨standing, there⟩ : base.layout.Holds key := by
      obtain ⟨rfl, holds⟩ := admits
      exact holds
    obtain ⟨after, expanded, records'⟩ := records.expandLazy wellFormed sound.admits found there
    refine ⟨after, _, expanded, ⟨records', Changes.sound_expand wellFormed allContent sound found there
      records'.isTree_overlay, Changes.shown_expand wellFormed found there admits
      (allContent.not_isReference there), rfl, ?_, ?_, ?_⟩, ?_, ?_⟩
    · rintro other ⟨standing', found'⟩
      by_cases same : key = other
      · subst same
        exact ⟨_, Changes.overlay_expand_self wellFormed found⟩
      · exact ⟨_, Changes.overlay_expand_of_found wellFormed found same found'⟩
    · intro other standing' found' notLazy
      refine Changes.overlay_expand_of_found wellFormed found ?_ found'
      rintro rfl
      exact notLazy ⟨above, reference, found⟩
    · intro other back
      exact ((Changes.readsBack_expand_iff wellFormed allContent found there).mp back).2
    · intro isLazy
      exact ((Changes.readsBack_expand_iff wellFormed allContent found there).mp (.inl isLazy)).1 rfl
    · intro other back gone
      by_contra different
      exact gone ((Changes.readsBack_expand_iff wellFormed allContent found there).mpr
        ⟨different, back⟩)

include records sound wellFormed allContent in
theorem unfolds_expandLazy (key : Key) :
    ∃ after next, (expandLazy key).effect buffer = (.ok (), after) ∧
      Unfolded base changes after next ∧ ¬ next.IsLazy key := by
  obtain ⟨after, next, ok, unfolded, notLazy, -⟩ :=
    exists_expandLazy records sound wellFormed allContent key
  exact ⟨after, next, ok, unfolded, notLazy⟩

end Unfolding

end Buffer

end VersionedTrees
