import VersionedTrees.Proofs.Buffer.Expand
import VersionedTrees.Proofs.Store.Rows

/-!
# Removing overlay subtrees

To remove an overlay subtree prunes the overlay and lists what the removed nodes stood for in the base
as deleted (`Buffer.Records.removeOverlaySubtree`). Changes stay sound by that. The subtree that is
shown goes, and with it what strays from it: base nodes that are shown elsewhere but stand below it in
the base (`Changes.Strays`). Where base nodes below those that are read from the base are all in place
(`Changes.Intact`), nothing strays (`Changes.Sound.shown_remove`).
-/

namespace VersionedTrees

variable {C : Type}

namespace Changes

variable {base : Store C} {changes : Changes C} {key top node parent other : Key}

/-- A key of the base that an overlay node stands for. -/
def StandsFor (base : Store C) (changes : Changes C) (node key : Key) : Prop :=
  changes.IsLazy node ∧ base.layout.Within node key ∨ node = key ∧ base.layout.Holds key

theorem StandsFor.holds (standsFor : changes.StandsFor base node key) : base.layout.Holds key := by
  rcases standsFor with ⟨-, within⟩ | ⟨rfl, holds⟩
  · exact within.holds
  · exact holds

/-- Takes an overlay subtree out, with what its nodes stand for. -/
noncomputable def remove (base : Store C) (changes : Changes C) (top : Key) : Changes C :=
  (changes.hide fun key =>
    ∃ node, changes.overlay.Within top node ∧ changes.StandsFor base node key).prune top

/-- The base children of a node that is read from the base are in place. -/
def Intact (base : Store C) (changes : Changes C) : Prop :=
  ∀ key parent, changes.ReadsBack parent → base.layout.IsChild key parent →
    changes.overlay key = none ∧ ¬ changes.deleted key

theorem intact_untouched : (untouched : Changes C).Intact base :=
  fun _ _ _ _ => ⟨rfl, not_false⟩

@[simp] theorem overlay_remove (changes : Changes C) (top : Key) :
    (changes.remove base top).overlay = changes.overlay.prune top := rfl

/-- A key that is kept by a removal is kept, and no removed node stood for it. -/
theorem not_deleted_remove_iff : ¬ (changes.remove base top).deleted key ↔
    ¬ changes.deleted key ∧
      ∀ node, changes.overlay.Within top node → ¬ changes.StandsFor base node key := by
  rw [remove, prune, hide, not_or, not_exists]
  simp only [not_and]

/-- What is kept and not in the overlay after a removal was so before. -/
theorem absent_of_remove (absent : (changes.remove base top).overlay key = none)
    (kept : ¬ (changes.remove base top).deleted key) (holds : base.layout.Holds key) :
    changes.overlay key = none ∧ ¬ changes.deleted key := by
  obtain ⟨kept, uncovered⟩ := not_deleted_remove_iff.mp kept
  refine ⟨?_, kept⟩
  by_contra present
  have within : changes.overlay.Within top key := by
    by_contra outside
    rw [overlay_remove, Layout.prune_of_not_within outside] at absent
    exact present absent
  exact uncovered key within (.inr ⟨rfl, holds⟩)

/-- To remove what is not in the overlay changes nothing. -/
theorem remove_eq_self (absent : changes.overlay top = none) : changes.remove base top = changes := by
  refine Changes.ext (Layout.prune_eq_self absent) (funext fun key => propext (or_iff_left ?_))
  rintro ⟨node, within, -⟩
  exact Layout.not_holds_iff.mpr absent within.top_holds

theorem isLazy_remove_iff : (changes.remove base top).IsLazy key ↔
    changes.IsLazy key ∧ ¬ changes.overlay.Within top key := by
  simp only [IsLazy, overlay_remove, Layout.prune_eq_some, exists_and_right]

/-- What is read from the base after a removal was so before. -/
theorem readsBack_of_remove (back : (changes.remove base top).ReadsBack key)
    (holds : base.layout.Holds key) : changes.ReadsBack key := by
  rcases back with isLazy | ⟨absent, kept⟩
  · exact .inl (isLazy_remove_iff.mp isLazy).1
  · exact .inr (absent_of_remove absent kept holds)

/-- After a removal what is shown of the base still hangs together upwards. -/
theorem covered_remove (isTree : base.layout.IsTree)
    (covered : ∀ key parent, changes.overlay key = none → ¬ changes.deleted key →
      base.layout.IsChild key parent → changes.ReadsBack parent)
    (absent : (changes.remove base top).overlay key = none)
    (kept : ¬ (changes.remove base top).deleted key) (isChild : base.layout.IsChild key parent) :
    (changes.remove base top).ReadsBack parent := by
  obtain ⟨absent', kept'⟩ := absent_of_remove absent kept isChild.holds
  obtain ⟨-, uncovered⟩ := not_deleted_remove_iff.mp kept
  rcases covered key parent absent' kept' isChild with isLazy | ⟨absentAbove, keptAbove⟩
  · -- a lazy parent that was removed would have stood for the key
    refine .inl (isLazy_remove_iff.mpr ⟨isLazy, fun within => ?_⟩)
    exact uncovered parent within
      (.inl ⟨isLazy, isChild.within (isTree.within_self (isTree.parent_holds isChild))⟩)
  · refine .inr ⟨?_, not_deleted_remove_iff.mpr ⟨keptAbove, fun node within standsFor => ?_⟩⟩
    · rw [overlay_remove, Layout.prune_of_absent absentAbove]
    · rcases standsFor with ⟨isLazy, within'⟩ | ⟨rfl, -⟩
      · exact uncovered node within (.inl ⟨isLazy, isChild.within within'⟩)
      · exact Layout.not_holds_iff.mpr absentAbove within.holds

theorem rootCovered_remove
    (rootCovered : ∀ key, changes.overlay key = none → ¬ changes.deleted key →
      base.layout.IsRoot key → ∀ other, changes.overlay other = none)
    (absent : (changes.remove base top).overlay key = none)
    (kept : ¬ (changes.remove base top).deleted key) (isRoot : base.layout.IsRoot key)
    (other : Key) : (changes.remove base top).overlay other = none := by
  obtain ⟨absent, kept⟩ := absent_of_remove absent kept isRoot.holds
  exact Layout.prune_of_absent (rootCovered key absent kept isRoot other)

/-- A removal keeps changes sound. -/
theorem Sound.remove (sound : changes.Sound base) (isTree : base.layout.IsTree) (top : Key) :
    (changes.remove base top).Sound base where
  isTree := sound.isTree.prune top
  admits key standing found := sound.admits key standing (Layout.prune_eq_some.mp found).1
  leaf key child isLazy isChild :=
    sound.leaf key child (isLazy_remove_iff.mp isLazy).1 (Layout.isChild_prune_iff.mp isChild).1
  covered _ _ := covered_remove isTree sound.covered
  rootCovered _ := rootCovered_remove sound.rootCovered
  exclusive key parent holds kept isChild back :=
    sound.exclusive key parent (Layout.prune_holds_iff.mp holds).1
      (not_deleted_remove_iff.mp kept).1 isChild
      (readsBack_of_remove back (isTree.parent_holds isChild))

/-! ## Intact changes -/

/-- The whole base subtree of a lazy node is in place. -/
theorem Intact.below (intact : changes.Intact base) (isTree : base.layout.IsTree)
    (isLazy : changes.IsLazy top) (within : base.layout.Within top key) (different : top ≠ key) :
    changes.overlay key = none ∧ ¬ changes.deleted key := by
  have holds := within.holds
  revert within different
  refine isTree.induction key holds ?_ ?_
  · intro key isRoot within different
    exact absurd (isRoot.within_iff.mp within) different
  · intro key parent isChild _ inductionHypothesis within different
    have above := ((Layout.within_iff_of_isChild isChild isTree).mp within).resolve_left different
    by_cases same : top = parent
    · subst same
      exact intact key top (.inl isLazy) isChild
    · exact intact key parent (.inr (inductionHypothesis above same)) isChild

/-- A removal keeps changes intact. -/
theorem Intact.remove (intact : changes.Intact base) (isTree : base.layout.IsTree) (top : Key) :
    (changes.remove base top).Intact base := by
  intro key parent back isChild
  have holds := isTree.parent_holds isChild
  obtain ⟨absent, kept⟩ := intact key parent (readsBack_of_remove back holds) isChild
  refine ⟨?_, not_deleted_remove_iff.mpr ⟨kept, fun node within standsFor => ?_⟩⟩
  · rw [overlay_remove, Layout.prune_of_not_within, absent]
    exact fun within => Layout.not_holds_iff.mpr absent within.holds
  · rcases standsFor with ⟨isLazy, within'⟩ | ⟨rfl, -⟩
    case inr => exact Layout.not_holds_iff.mpr absent within.holds
    case inl =>
      have different : node ≠ key := by
        rintro rfl
        exact Layout.not_holds_iff.mpr absent isLazy.holds
      have above := ((Layout.within_iff_of_isChild isChild isTree).mp within').resolve_left different
      rcases back with isLazy' | ⟨-, kept'⟩
      · obtain ⟨isLazy', outside⟩ := isLazy_remove_iff.mp isLazy'
        by_cases same : node = parent
        · subst same
          exact outside within
        · exact Layout.not_holds_iff.mpr (intact.below isTree isLazy above same).1 isLazy'.holds
      · exact (not_deleted_remove_iff.mp kept').2 node within (.inl ⟨isLazy, above⟩)

/-- With intact changes, the base subtree of a lazy node is shown below it. -/
theorem Intact.within_shown (intact : changes.Intact base) (sound : changes.Sound base)
    (isTree : base.layout.IsTree) (isLazy : changes.IsLazy top)
    (within : base.layout.Within top key) : (changes.shown base).Within top key := by
  have self := (sound.isTree_shown isTree).within_self
    (show (changes.shown base).Holds top from holds_shown_of_overlay isLazy.holds)
  have holds := within.holds
  revert within
  refine isTree.induction key holds ?_ ?_
  · intro key isRoot within
    rwa [← isRoot.within_iff.mp within]
  · intro key parent isChild _ inductionHypothesis within
    rcases (Layout.within_iff_of_isChild isChild isTree).mp within with rfl | above
    · exact self
    · by_cases same : top = key
      · rwa [← same]
      · obtain ⟨absent, kept⟩ := intact.below isTree isLazy within same
        exact ((isChild_shown_of_kept absent kept).mpr isChild).within (inductionHypothesis above)

/-- What is shown below an overlay node is in the overlay there, or in the base subtree of a lazy
node there. -/
theorem Sound.within_shown_cases (sound : changes.Sound base) (isTree : base.layout.IsTree)
    (holds : changes.overlay.Holds top) (within : (changes.shown base).Within top key) :
    changes.overlay.Within top key ∨ changes.overlay key = none ∧
      ∃ node, changes.overlay.Within top node ∧ changes.StandsFor base node key := by
  rcases holds_shown_cases within.holds with inside | ⟨absent, kept, there⟩
  · exact .inl ((sound.within_shown_iff inside).mp within)
  · refine .inr ⟨absent, ?_⟩
    have apart : ∀ {other}, changes.overlay other = none → top ≠ other := by
      rintro _ absent rfl
      exact Layout.not_holds_iff.mpr absent holds
    revert within absent kept
    refine isTree.induction key there ?_ ?_
    · intro key isRoot within absent kept
      have isRoot' := (isRoot_shown_of_kept absent kept).mpr isRoot
      exact absurd (isRoot'.within_iff.mp within) (apart absent)
    · intro key parent isChild there inductionHypothesis within absent kept
      have isChild' := (isChild_shown_of_kept absent kept).mpr isChild
      have above := ((Layout.within_iff_of_isChild isChild'
        (sound.isTree_shown isTree)).mp within).resolve_left (apart absent)
      rcases sound.covered key parent absent kept isChild with isLazy | ⟨absent', kept'⟩
      · exact ⟨parent, (sound.within_shown_iff isLazy.holds).mp above,
          .inl ⟨isLazy, isChild.within (isTree.within_self there)⟩⟩
      · obtain ⟨node, within', standsFor⟩ := inductionHypothesis above absent' kept'
        rcases standsFor with ⟨isLazy, below⟩ | ⟨rfl, -⟩
        · exact ⟨node, within', .inl ⟨isLazy, isChild.within below⟩⟩
        · exact absurd within'.holds (Layout.not_holds_iff.mpr absent')

/-- For a key that is not in the overlay, the nodes of an overlay subtree stand together like the nodes
of what is shown there: by those that are read from the base. -/
theorem Sound.exists_standsFor_iff (sound : changes.Sound base) (isTree : base.layout.IsTree)
    (holds : changes.overlay.Holds top) (absent : changes.overlay key = none) :
    (∃ node, changes.overlay.Within top node ∧ changes.StandsFor base node key) ↔
      ∃ node, (changes.shown base).Within top node ∧ changes.ReadsBack node ∧
        base.layout.Within node key := by
  constructor
  · rintro ⟨node, within, ⟨isLazy, below⟩ | ⟨rfl, -⟩⟩
    · exact ⟨node, (sound.within_shown_iff isLazy.holds).mpr within, .inl isLazy, below⟩
    · exact absurd within.holds (Layout.not_holds_iff.mpr absent)
  · rintro ⟨node, within, back, below⟩
    rcases back with isLazy | ⟨absent', -⟩
    · exact ⟨node, (sound.within_shown_iff isLazy.holds).mp within, .inl ⟨isLazy, below⟩⟩
    · rcases sound.within_shown_cases isTree holds within with
        inside | ⟨-, node', within', ⟨isLazy, above⟩ | ⟨rfl, -⟩⟩
      · exact absurd inside.holds (Layout.not_holds_iff.mpr absent')
      · exact ⟨node', within', .inl ⟨isLazy, above.trans below⟩⟩
      · exact absurd within'.holds (Layout.not_holds_iff.mpr absent')

/-- A key that is read from the base and shown elsewhere, although it is in the base below a node of
the subtree that is shown at another key. -/
structure Strays (base : Store C) (changes : Changes C) (top key : Key) : Prop where
  absent : changes.overlay key = none
  kept : ¬ changes.deleted key
  outside : ¬ (changes.shown base).Within top key
  below : ∃ node, (changes.shown base).Within top node ∧ changes.ReadsBack node ∧
    base.layout.Within node key

/-- A removal hides what strays from the removed subtree. -/
theorem Sound.shown_remove_of_strays (sound : changes.Sound base) (isTree : base.layout.IsTree)
    (holds : changes.overlay.Holds top) (strays : changes.Strays base top key) :
    (changes.remove base top).shown base key = none := by
  have absent := strays.absent
  have covered := (sound.exists_standsFor_iff isTree holds absent).mpr strays.below
  refine shown_of_deleted ?_ (.inr covered)
  rw [overlay_remove, Layout.prune_of_absent absent]

/-- Apart from what strays, a removal takes out the subtree that is shown. -/
theorem Sound.shown_remove_of_not_strays (sound : changes.Sound base) (isTree : base.layout.IsTree)
    (holds : changes.overlay.Holds top) (stays : ¬ changes.Strays base top key) :
    (changes.remove base top).shown base key = (changes.shown base).prune top key := by
  by_cases within : changes.overlay.Within top key
  · rw [Layout.prune_of_within ((sound.within_shown_iff within.holds).mpr within),
      shown_eq_none_iff, overlay_remove, Layout.prune_of_within within, and_iff_right rfl]
    by_cases there : base.layout.Holds key
    · exact .inl (.inr ⟨key, within, .inr ⟨rfl, there⟩⟩)
    · exact .inr (Layout.not_holds_iff.mp there)
  · have overlay_eq : (changes.remove base top).overlay key = changes.overlay key := by
      rw [overlay_remove, Layout.prune_of_not_within within]
    cases found : changes.overlay key with
    | some standing =>
        rw [found] at overlay_eq
        rw [shown_of_overlay overlay_eq, Layout.prune_of_not_within, shown_of_overlay found]
        rwa [sound.within_shown_iff ⟨standing, found⟩]
    | none =>
        rw [found] at overlay_eq
        by_cases deleted : changes.deleted key
        · rw [Layout.prune_of_absent (shown_of_deleted found deleted),
            shown_of_deleted overlay_eq (.inl deleted)]
        · have covered_iff := sound.exists_standsFor_iff isTree holds found
          by_cases covered : ∃ node, changes.overlay.Within top node ∧
              changes.StandsFor base node key
          · rw [shown_of_deleted overlay_eq (.inr covered), Layout.prune_of_within]
            by_contra outside
            exact stays ⟨found, deleted, outside, covered_iff.mp covered⟩
          · rw [shown_of_kept overlay_eq (fun gone => gone.elim deleted covered),
              Layout.prune_of_not_within, shown_of_kept found deleted]
            intro within'
            rcases sound.within_shown_cases isTree holds within' with inside | ⟨-, covered'⟩
            · exact within inside
            · exact covered covered'

/-- From intact changes nothing strays. -/
theorem Intact.not_strays (intact : changes.Intact base) (sound : changes.Sound base)
    (isTree : base.layout.IsTree) (holds : changes.overlay.Holds top) :
    ¬ changes.Strays base top key := by
  rintro ⟨absent, -, outside, below⟩
  obtain ⟨node, within, ⟨isLazy, below⟩ | ⟨rfl, -⟩⟩ :=
    (sound.exists_standsFor_iff isTree holds absent).mpr below
  · exact outside (((sound.within_shown_iff isLazy.holds).mpr within).trans
      (intact.within_shown sound isTree isLazy below))
  · exact Layout.not_holds_iff.mpr absent within.holds

/-- From intact changes, a removal takes out the subtree that is shown, and nothing else. -/
theorem Sound.shown_remove (sound : changes.Sound base) (isTree : base.layout.IsTree)
    (intact : changes.Intact base) (holds : changes.overlay.Holds top) :
    (changes.remove base top).shown base = (changes.shown base).prune top :=
  funext fun _ =>
    sound.shown_remove_of_not_strays isTree holds (intact.not_strays sound isTree holds)

end Changes

namespace Buffer

variable {base : Store C} {changes : Changes C} {buffer : Buffer C} {key top : Key}

theorem Records.congr {other : Changes C} (records : buffer.Records base changes)
    (overlay : changes.overlay = other.overlay)
    (deleted : ∀ key, changes.deleted key ↔ other.deleted key) : buffer.Records base other :=
  ⟨records.backing, records.wellFormed, records.overlay.trans overlay,
    fun key => (records.deleted key).trans (deleted key)⟩

/-- Keys are hidden one after the other. -/
theorem Records.hideAll (records : buffer.Records base changes) (keys : List Key) :
    ∃ after, (keys.forM Buffer.hide).effect buffer = (.ok ⟨⟩, after) ∧
      after.Records base (changes.hide (· ∈ keys)) := by
  induction keys generalizing buffer changes with
  | nil => exact ⟨buffer, rfl, records.congr rfl fun key => by simp [Changes.hide]⟩
  | cons key keys inductionHypothesis =>
      obtain ⟨middle, hidden, records'⟩ := records.hide key
      obtain ⟨after, ok, records''⟩ := inductionHypothesis records'
      refine ⟨after, by rw [Edit.effect_forM_cons_of_ok hidden, ok], records''.congr rfl ?_⟩
      intro other
      simp only [Changes.hide, List.mem_cons, or_assoc, eq_comm (a := key)]

/-- A hidden base subtree is deleted. -/
theorem Records.hideBackingSubtree (records : buffer.Records base changes)
    (wellFormed : base.WellFormed) (holds : base.layout.Holds top) :
    ∃ after, (hideBackingSubtree top).effect buffer = (.ok (), after) ∧
      after.Records base (changes.hide fun key => base.layout.Within top key) := by
  rw [Buffer.hideBackingSubtree, Edit.effect_current_bind, records.backingTree,
    wellFormed.visitFrom_eq _ holds]
  obtain ⟨after, ok, records'⟩ :=
    records.hideAll (preorder base.tree.childList base.tree.levels top)
  refine ⟨after, ok, records'.congr rfl fun key => or_congr_right ?_⟩
  exact wellFormed.listed.mem_preorder_iff wellFormed.isTree holds
    (wellFormed.shows.exhausts holds (Nat.le_succ _))

section Removal

variable (records : buffer.Records base changes) (wellFormed : base.WellFormed)
  (admits : ∀ key standing, changes.overlay key = some standing →
    base.Admits key standing.payload)

include records wellFormed admits

/-- What an overlay node stands for is hidden. -/
theorem Records.hideNode (node : Key) :
    ∃ after, (hideNode node).effect buffer = (.ok (), after) ∧
      after.Records base (changes.hide (changes.StandsFor base node)) := by
  rw [Buffer.hideNode, Edit.effect_current_bind]
  by_cases isLazy : changes.IsLazy node
  · rw [(records.isLazy_iff (admits node)).mpr isLazy, if_pos rfl]
    obtain ⟨above, reference, found⟩ := isLazy
    obtain ⟨rfl, holds⟩ := admits node _ found
    obtain ⟨after, ok, records'⟩ := records.hideBackingSubtree wellFormed holds
    refine ⟨after, ok, records'.congr rfl fun key => or_congr_right ⟨fun within => ?_, ?_⟩⟩
    · exact .inl ⟨⟨above, _, found⟩, within⟩
    · rintro (⟨-, within⟩ | ⟨rfl, -⟩)
      · exact within
      · exact wellFormed.isTree.within_self holds
  · rw [records.isLazy_eq_false (admits node) isLazy]
    have contains : (buffer.backingTree.contains node).result = .ok (base.contains node) := by
      rw [records.backingTree]
      rfl
    cases there : base.contains node with
    | true =>
        rw [there] at contains
        have holds := Store.contains_iff_holds.mp there
        obtain ⟨after, ok, records'⟩ := records.hide node
        refine ⟨after, (Edit.effect_liftM_bind contains).trans ok, records'.congr rfl fun key =>
          or_congr_right ⟨?_, ?_⟩⟩
        · rintro rfl
          exact .inr ⟨rfl, holds⟩
        · exact fun standsFor => standsFor.elim (fun lazy => absurd lazy.1 isLazy) And.left
    | false =>
        rw [there] at contains
        have absent := Layout.not_holds_iff.mpr (Store.contains_eq_false_iff.mp there)
        refine ⟨buffer, Edit.effect_liftM_bind contains, records.congr rfl fun key =>
          (or_iff_left ?_).symm⟩
        rintro (⟨lazy, -⟩ | ⟨rfl, holds⟩)
        · exact isLazy lazy
        · exact absent holds

/-- What overlay nodes stand for is hidden, one node after the other. -/
theorem Records.hideNodes (nodes : List Key) :
    ∃ after, (nodes.forM Buffer.hideNode).effect buffer = (.ok ⟨⟩, after) ∧
      after.Records base (changes.hide fun key =>
        ∃ node ∈ nodes, changes.StandsFor base node key) := by
  induction nodes generalizing buffer changes with
  | nil => exact ⟨buffer, rfl, records.congr rfl fun key => by simp [Changes.hide]⟩
  | cons node nodes inductionHypothesis =>
      obtain ⟨middle, hidden, records'⟩ := records.hideNode wellFormed admits node
      obtain ⟨after, ok, records''⟩ := inductionHypothesis records' admits
      refine ⟨after, by rw [Edit.effect_forM_cons_of_ok hidden, ok], records''.congr rfl ?_⟩
      intro other
      simp only [Changes.hide, List.exists_mem_cons_iff, or_assoc]
      rfl

/-- The nodes of an overlay subtree are hidden and taken out. -/
theorem Records.removeOverlaySubtree (holds : changes.overlay.Holds top) :
    ∃ after, (removeOverlaySubtree top).effect buffer = (.ok (), after) ∧
      after.Records base (changes.remove base top) := by
  have shows := records.wellFormed.shows
  rw [records.overlay] at shows
  have enough := shows.exhausts holds (Nat.le_refl _)
  have keys := shows.result_keysFrom holds
  obtain ⟨middle, hidden, records'⟩ := records.hideNodes wellFormed admits
    (preorder buffer.overlay.tree.childList buffer.overlay.tree.span top)
  obtain ⟨after, ok, records''⟩ := records'.deleteOverlay holds
  refine ⟨after, ?_, records''.congr rfl fun key => or_congr_right ?_⟩
  · rw [Buffer.removeOverlaySubtree, Edit.effect_current_bind]
    exact (Edit.effect_liftM_bind keys).trans ((Edit.effect_bind_of_ok hidden).trans ok)
  · refine exists_congr fun node => and_congr_left fun _ => ?_
    exact shows.listed.mem_preorder_iff shows.isTree holds enough

end Removal

end Buffer

end VersionedTrees
