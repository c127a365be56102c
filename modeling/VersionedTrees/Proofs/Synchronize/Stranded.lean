import VersionedTrees.Proofs.Buffer.CoherentRuns
import VersionedTrees.Proofs.Synchronize.Spelled

/-!
# Stranded nodes

A tree-reference that is stored while a node of its base subtree stands elsewhere in the overlay strands
that node: it is in the overlay or deleted, and never read from the base below the tree-reference again
(`Changes.Strands`). What is shown may be no tree from then on, so it says little what an edit does to it.
But every step of an edit that the rest of a synchronization makes keeps the node stranded, whatever it
does otherwise (`Buffer.Stranded`), and a buffer with a stranded node does not read as the expansion of the
source.
-/

namespace VersionedTrees

variable {C : Type}

namespace Changes

/-- The tree-reference of a source under a key has its place in the overlay, with the keys above it, and
nothing but base nodes below it. Some base nodes below it are in the overlay elsewhere, or deleted. -/
structure Strands (source base : Store C) (top : Key) (lost : Key → Prop) (changes : Changes C) :
    Prop where
  admitted : changes.Admitted base
  isLazy : changes.IsLazy top
  alone : ∀ child, ¬ changes.overlay.IsChild child top
  line : changes.overlay.Aligned source.layout (source.layout.Within · top)
  below : ∀ key, lost key → base.layout.Within top key ∧ top ≠ key
  gone : ∀ key, lost key → changes.overlay.Holds key ∨ changes.deleted key

namespace Strands

variable {source base : Store C} {top key : Key} {lost : Key → Prop} {changes : Changes C}
  {parent : Option Key} {payload : Payload C} (strands : changes.Strands source base top lost)

include strands

theorem holds_line (within : source.layout.Within key top) : changes.overlay.Holds key := by
  have same := strands.line.sameParent key within
  obtain ⟨standing, found⟩ := within.top_holds
  rw [found, Option.map_some, Option.map_eq_some_iff] at same
  obtain ⟨stored, there, -⟩ := same
  exact ⟨stored, there⟩

/-- A node may be placed unless it is above the tree-reference or goes below it, and with its parent kept
in any case. -/
theorem place (different : top ≠ key) (admits : base.Admits key payload)
    (fits : (∃ old, changes.overlay key = some ⟨parent, old⟩) ∨
      ¬ source.layout.Within key top ∧ parent ≠ some top) :
    (changes.place key ⟨parent, payload⟩).Strands source base top lost where
  admitted other standing found := by
    rw [overlay_place, Layout.place_eq] at found
    split at found
    · rename_i same
      cases found
      exact same ▸ admits
    · exact strands.admitted other standing found
  isLazy := (isLazy_place_of_ne different.symm).mpr strands.isLazy
  alone child isChild := by
    by_cases same : key = child
    · subst same
      obtain ⟨_, found⟩ := isChild
      rw [overlay_place, Layout.place_self] at found
      cases found
      rcases fits with ⟨old, found⟩ | ⟨-, apart⟩
      · exact strands.alone key ⟨old, found⟩
      · exact apart rfl
    · rw [Layout.isChild_iff, overlay_place, Layout.place_of_ne same, ← Layout.isChild_iff] at isChild
      exact strands.alone child isChild
  line :=
    { strands.line with
      sameParent := fun other within => by
        rw [← strands.line.sameParent other within, overlay_place]
        by_cases same : key = other
        · subst same
          obtain ⟨old, found⟩ := fits.resolve_right fun both => both.1 within
          rw [Layout.place_self, found]
          rfl
        · rw [Layout.place_of_ne same] }
  below := strands.below
  gone other inside := by
    refine (strands.gone other inside).imp_left fun ⟨standing, found⟩ => ?_
    by_cases same : key = other
    · subst same
      exact ⟨_, Layout.place_self _ _ _⟩
    · exact ⟨standing, (Layout.place_of_ne same).trans found⟩

/-- Base keys may be adopted below any other node. -/
theorem adopt {above : Key} (different : top ≠ above) {keys : List Key}
    (there : ∀ key ∈ keys, base.layout.Holds key) :
    (changes.adopt base above keys).Strands source base top lost := by
  induction keys generalizing changes with
  | nil => rwa [adopt_nil]
  | cons first keys inductionHypothesis =>
      rw [List.forall_mem_cons] at there
      rw [adopt_cons]
      refine inductionHypothesis ?_ there.2
      by_cases new : changes.overlay first = none ∧ ¬ changes.deleted first
      · rw [adopt_of_new new.1 new.2]
        have absent := Layout.not_holds_iff.mpr new.1
        refine strands.place ?_ ⟨rfl, there.1⟩ (.inr ⟨fun within => absent (strands.holds_line within), ?_⟩)
        · rintro rfl
          exact absent strands.isLazy.holds
        · rw [ne_eq, Option.some.injEq]
          exact different.symm
      · rwa [adopt_of_old new]

theorem expand (wellFormed : base.WellFormed) (allContent : base.AllContent) {reference : Reference}
    {standing : Standing C} (different : top ≠ key)
    (found : changes.overlay key = some ⟨parent, .treeReference reference⟩)
    (there : base.layout key = some standing) :
    (changes.expand base key parent standing.payload).Strands source base top lost := by
  obtain ⟨value, content⟩ := allContent.exists_content there
  have admits : base.Admits key standing.payload := by
    rw [content]
    trivial
  refine (strands.place different admits (.inl ⟨_, found⟩)).adopt different fun child inside => ?_
  exact ((wellFormed.listed.mem_iff key child).mp inside).holds

/-- An overlay subtree may be removed, unless the tree-reference is in it. -/
theorem remove (isTree : changes.overlay.IsTree) (sourceTree : source.layout.IsTree)
    (stands : source.layout.Holds top) (outside : ¬ source.layout.Within key top) :
    (changes.remove base key).Strands source base top lost := by
  have apart : ∀ other, source.layout.Within other top → ¬ changes.overlay.Within key other := by
    intro other within inside
    rw [strands.line.within_iff isTree sourceTree within within.top_holds] at inside
    exact outside (inside.trans within)
  exact
    { admitted := fun other standing found =>
        strands.admitted other standing (Layout.prune_eq_some.mp found).1
      isLazy := isLazy_remove_iff.mpr ⟨strands.isLazy, apart top (sourceTree.within_self stands)⟩
      alone := fun child isChild => strands.alone child (Layout.isChild_prune_iff.mp isChild).1
      line :=
        { strands.line with
          sameParent := fun other within => by
            rw [overlay_remove, Layout.prune_of_not_within (apart other within),
              strands.line.sameParent other within] }
      below := strands.below
      gone := fun other inside => by
        rcases strands.gone other inside with holds | deleted
        · by_cases within : changes.overlay.Within key other
          · exact .inr (.inr ⟨other, within, .inr ⟨rfl, (strands.below other inside).1.holds⟩⟩)
          · exact .inl (Layout.prune_holds_iff.mpr ⟨holds, within⟩)
        · exact .inr (.inl deleted) }

/-- Keys that are not stranded may be hidden or revealed. -/
theorem redelete {deleted : Key → Prop}
    (same : ∀ key, lost key → changes.deleted key → deleted key) :
    ({ changes with deleted } : Changes C).Strands source base top lost :=
  { strands with gone := fun key inside => (strands.gone key inside).imp_right (same key inside) }

end Strands

end Changes

namespace Buffer

/-- A buffer has changes that strand some nodes of the base subtree of a tree-reference. -/
def Stranded (source base : Store C) (top : Key) (lost : Key → Prop) (buffer : Buffer C) : Prop :=
  ∃ changes, buffer.Records base changes ∧ changes.Strands source base top lost

section Keeping

variable {source base expanded : Store C} {top key other : Key} {lost : Key → Prop}
  {buffer after : Buffer C} {parent : Option Key} {payload : Payload C}
  (spells : source.Spells base expanded) (refers : source.Refers top)

include spells

theorem keeps_expandLazy_of_stranded (different : top ≠ key) :
    Edit.Keeps (Stranded source base top lost) (expandLazy key) := by
  rintro buffer ⟨changes, records, strands⟩
  by_cases isLazy : changes.IsLazy key
  · obtain ⟨above, reference, found⟩ := isLazy
    obtain ⟨standing, there⟩ : base.layout.Holds key := (strands.admitted key _ found).2
    obtain ⟨after, expanded, records'⟩ :=
      records.expandLazy spells.wellFormed strands.admitted found there
    rw [expanded]
    exact ⟨_, records', strands.expand spells.wellFormed spells.allContent different found there⟩
  · rw [effect_expandLazy_of_not_isLazy records strands.admitted isLazy]
    exact ⟨changes, records, strands⟩

omit spells in
theorem keeps_seed_of_stranded : Edit.Keeps (Stranded source base top lost) seed := by
  rintro buffer ⟨changes, records, strands⟩
  have nonempty : ¬ buffer.overlay.isEmpty = true := by
    rw [records.isEmpty_iff]
    exact fun empty => Layout.holds_iff_ne_none.mp strands.isLazy.holds (empty top)
  rw [seed, Edit.effect_current_bind, if_neg nonempty]
  exact ⟨changes, records, strands⟩

/-- To reach a key expands base nodes above it. Above a key that is not below the tree-reference, that is
never the tree-reference, and what is stranded is not reached through it either. -/
theorem keeps_reach_of_stranded
    (free : base.layout.Within top key → top = key ∨ lost key) :
    Edit.Keeps (Stranded source base top lost) (reach key) := by
  rintro buffer ⟨changes, records, strands⟩
  have baseTree := spells.wellFormed.isTree
  rw [reach, Edit.effect_current_bind]
  by_cases there : changes.overlay.Holds key
  · rw [if_pos (records.contains_overlay.mpr there)]
    exact ⟨changes, records, strands⟩
  rw [if_neg (mt records.contains_overlay.mp there)]
  refine Edit.keeps_liftM_bind (fun _ passed => ?_) buffer ⟨changes, records, strands⟩
  have kept : ¬ changes.deleted key := by
    rw [← records.contains_deleted, Bool.not_eq_true, ← Bool.not_eq_true']
    exact Read.result_require_eq_ok passed
  have outside : ¬ base.layout.Within top key := by
    intro within
    rcases free within with rfl | inside
    · exact there strands.isLazy.holds
    · exact (strands.gone key inside).elim there kept
  have apart : ∀ other, base.layout.Within other key → top ≠ other := by
    rintro _ within rfl
    exact outside within
  have closed : ∀ other parent, base.layout.Within other key →
      (buffer.backingTree.parent other).result = .ok (some parent) → base.layout.Within parent key := by
    intro other parent within told
    obtain ⟨⟨above, payload⟩, found⟩ := within.top_holds
    rw [records.backingTree, spells.wellFormed.shows.parent, found, Except.ok.injEq] at told
    subst told
    have isChild : base.layout.IsChild other parent := ⟨payload, found⟩
    exact (isChild.within (baseTree.within_self (baseTree.parent_holds isChild))).trans within
  refine (Edit.keeps_liftM_bind fun contained contains => (Edit.keeps_liftM_bind fun _ passed => ?_))
  refine Edit.keeps_liftM_bind fun above told => Edit.keeps_liftM_bind ?_
  rintro ⟨anchor, keys⟩ climbed
  have held : base.layout.Holds key := by
    rw [records.backingTree] at contains
    rw [Read.result_require_eq_ok passed] at contains
    exact Store.contains_iff_holds.mp (Except.ok.inj contains)
  obtain ⟨anchored, passed⟩ := reached_of_climb closed
    (fun other same => closed key other (baseTree.within_self held)
      (told.trans (congrArg Except.ok same))) climbed
  have anchors : Edit.Keeps (Stranded source base top lost) (expandAnchor key anchor) := by
    cases anchor with
    | none =>
        exact Edit.keeps_bind_current fun _ _ =>
          (Edit.keeps_liftM _).bind fun _ => keeps_seed_of_stranded
    | some anchor =>
        exact Edit.keeps_bind_current fun _ _ => (Edit.keeps_liftM _).bind fun _ =>
          keeps_expandLazy_of_stranded spells (apart anchor (anchored anchor rfl))
  refine anchors.bind fun _ => (Edit.keeps_forM_of_mem fun other inside =>
    keeps_expandLazy_of_stranded spells (apart other (passed other inside))).bind fun _ => ?_
  exact Edit.keeps_bind_current fun _ _ => Edit.keeps_liftM _

/-- An overlay subtree without the tree-reference is removed. -/
theorem keeps_removeOverlaySubtree_of_stranded (refers : source.Refers top)
    (outside : ¬ source.layout.Within key top) :
    Edit.Keeps (Stranded source base top lost) (removeOverlaySubtree key) := by
  rintro buffer ⟨changes, records, strands⟩
  by_cases holds : changes.overlay.Holds key
  · obtain ⟨after, removed, records'⟩ :=
      records.removeOverlaySubtree spells.wellFormed strands.admitted holds
    rw [removed]
    exact ⟨_, records', strands.remove records.isTree_overlay spells.refers.wellFormed.isTree
      refers.holds outside⟩
  · have absent : buffer.overlay.layout key = none := by
      rw [records.overlay]
      exact Layout.not_holds_iff.mp holds
    have unread : (buffer.overlay.tree.keysFrom key).result = .error (.nodeNotFound key) := by
      refine Read.result_bind_of_error ?_
      rw [records.wellFormed.shows.children, absent]
      rfl
    rw [removeOverlaySubtree, Edit.effect_current_bind, Edit.effect_liftM_bind_of_error unread]
    exact ⟨changes, records, strands⟩

/-- Another tree-reference is restored. -/
theorem keeps_restore_of_stranded (refers : source.Refers top) (refers' : source.Refers other)
    (different : top ≠ other) :
    Edit.Keeps (Stranded source base top lost) (restore other) := by
  rintro buffer ⟨changes, records, strands⟩
  rw [restore, Edit.effect_current_bind]
  refine Edit.keeps_liftM_bind (fun children told => ?_) buffer ⟨changes, records, strands⟩
  have lower : ∀ child ∈ children, ¬ source.layout.Within child top := by
    intro child inside within
    rw [records.wellFormed.shows.children] at told
    split at told
    · cases told
      have isChild := (mem_overlay_childList records).mp inside
      rw [Layout.isChild_iff, strands.line.sameParent child within, ← Layout.isChild_iff] at isChild
      obtain ⟨above, reference, found⟩ := refers'
      exact spells.refers.leaf other child above reference found isChild
    · cases told
  refine (Edit.keeps_forM_of_mem fun child inside =>
    keeps_removeOverlaySubtree_of_stranded spells refers (lower child inside)).bind fun _ => ?_
  rw [records.backingTree, spells.wellFormed.visitFrom_eq _ (spells.base_holds refers')]
  refine Edit.keeps_forM_of_mem fun key inside => ?_
  have within : base.layout.Within other key :=
    (spells.wellFormed.listed.mem_preorder_iff spells.wellFormed.isTree (spells.base_holds refers')
      (spells.wellFormed.shows.exhausts (spells.base_holds refers') (Nat.le_succ _))).mp inside
  rintro buffer ⟨changes, records, strands⟩
  obtain ⟨after, settled, records'⟩ := records.settleKey other key
  rw [settled]
  refine ⟨_, records', strands.redelete fun node inside deleted => ?_⟩
  -- what is stranded is not below another tree-reference
  rw [if_neg]
  · exact deleted
  · intro same
    rw [same] at inside
    exact different (spells.eq_of_within_both refers refers' (strands.below key inside).1 within)

section Inserting

variable (refers : source.Refers top) (found : source.layout key = some ⟨parent, payload⟩)
  (outside : ¬ source.layout.Within key top)

include found in
theorem ne_of_outside (outside : ¬ source.layout.Within key top) : top ≠ key := by
  rintro rfl
  exact outside (spells.refers.wellFormed.isTree.within_self ⟨_, found⟩)

include refers in
/-- A node of the source may be reached. -/
theorem keeps_reach_of_holds (stands : source.layout.Holds key) :
    Edit.Keeps (Stranded source base top lost) (reach key) :=
  keeps_reach_of_stranded spells fun within => .inl (spells.eq_of_within refers stands within)

include refers found

/-- The source has nothing below a tree-reference. -/
theorem parent_ne_of_refers : parent ≠ some top := by
  rintro rfl
  obtain ⟨above, reference, found'⟩ := refers
  exact spells.refers.leaf top key above reference found' ⟨payload, found⟩

theorem keeps_prepareParent_of_stranded :
    Edit.Keeps (Stranded source base top lost) (prepareParent parent) := by
  have notBelow := parent_ne_of_refers spells refers found
  cases parent with
  | none => exact keeps_seed_of_stranded
  | some above =>
      have isChild : source.layout.IsChild key above := ⟨payload, found⟩
      have stands := spells.refers.wellFormed.isTree.parent_holds isChild
      refine (keeps_reach_of_holds spells refers stands).bind fun _ =>
        keeps_expandLazy_of_stranded spells ?_
      rintro rfl
      exact notBelow rfl

theorem keeps_prepareMoved_of_stranded :
    Edit.Keeps (Stranded source base top lost) (prepareMoved (some key)) := by
  have reaches : Edit.Keeps (Stranded source base top lost) (reachBacked key) :=
    Edit.keeps_bind_current fun _ _ => (Edit.keeps_liftM _).bind fun _ =>
      Edit.keeps_when (keeps_reach_of_holds spells refers ⟨_, found⟩)
  refine Edit.keeps_bind_current fun _ _ => (Edit.keeps_when reaches).bind fun _ => ?_
  exact Edit.keeps_bind_current fun _ _ => Edit.keeps_pure _

include outside

/-- A row of the source that is not above the tree-reference may be inserted. -/
theorem Stranded.insert (stranded : buffer.Stranded source base top lost) {told : Key}
    (ok : (insert parent (.exactly key) payload).effect buffer = (.ok told, after)) :
    after.Stranded source base top lost := by
  have different := ne_of_outside spells found outside
  have chosen : explicitKey parent (.exactly key) = some key := by cases parent <;> rfl
  rw [Buffer.insert, Edit.effect_current_bind, chosen] at ok
  obtain ⟨⟨⟩, -, ok⟩ := Edit.effect_liftM_bind_eq_ok ok
  obtain ⟨⟨⟩, -, ok⟩ := Edit.effect_liftM_bind_eq_ok ok
  obtain ⟨⟨⟩, first, prepared, ok⟩ := Edit.effect_bind_eq_ok ok
  obtain ⟨existed, second, moved, ok⟩ := Edit.effect_bind_eq_ok ok
  obtain ⟨⟨⟩, third, expanded, ok⟩ := Edit.effect_bind_eq_ok ok
  obtain ⟨told, fourth, inserted, ok⟩ := Edit.effect_bind_eq_ok ok
  obtain ⟨⟨⟩, fifth, passed, ok⟩ := Edit.effect_bind_eq_ok ok
  obtain ⟨⟨⟩, sixth, restored, ok⟩ := Edit.effect_bind_eq_ok ok
  cases ok
  obtain rfl := key_of_insertOverlay chosen inserted
  have stranded := (keeps_prepareParent_of_stranded spells refers found).of_ok stranded prepared
  have stranded := (keeps_prepareMoved_of_stranded spells refers found).of_ok stranded moved
  obtain ⟨changes, records, strands⟩ := (Edit.keeps_when (Edit.keeps_forM_of_mem fun other inside => by
    rw [List.mem_singleton.mp inside]
    exact keeps_expandLazy_of_stranded spells different)).of_ok stranded expanded
  have records' := records.placed inserted
  have unchanged : fifth = fourth := by
    rw [Edit.effect_when] at passed
    split at passed
    · exact (gone_of_rejectTakenKey records' passed).1
    · cases passed
      rfl
  have placed : fifth.Stranded source base top lost := by
    rw [unchanged]
    exact ⟨_, records', strands.place different (spells.admits found)
      (.inr ⟨outside, parent_ne_of_refers spells refers found⟩)⟩
  cases isTreeReference : payload.isTreeReference with
  | true =>
      have refers' := (Store.refers_iff found).mpr isTreeReference
      exact (Edit.keeps_when (keeps_restore_of_stranded spells refers refers' different)).of_ok placed
        restored
  | false =>
      rw [isTreeReference] at restored
      cases restored
      exact placed

end Inserting

/-- What is not above the tree-reference may be deleted, if it is not a base node below it or stranded. -/
theorem keeps_delete_of_stranded (refers : source.Refers top)
    (free : base.layout.Within top key → top = key ∨ lost key)
    (outside : ¬ source.layout.Within key top) :
    Edit.Keeps (Stranded source base top lost) (delete key) :=
  (keeps_reach_of_stranded spells free).bind fun _ =>
    keeps_removeOverlaySubtree_of_stranded spells refers outside

end Keeping

/-! ## Reading a buffer with a stranded node -/

/-- A base node below a tree-reference of the source cannot be read as in the expansion if it is stranded:
from its parents one comes to an overlay node that is not below the tree-reference. -/
theorem Stranded.not_sameReads {source base expanded : Store C} {top key : Key} {lost : Key → Prop}
    {buffer : Buffer C} (spells : source.Spells base expanded) (refers : source.Refers top)
    (stranded : buffer.Stranded source base top lost) (inside : lost key) :
    ¬ buffer.tree.SameReads expanded.tree := by
  obtain ⟨changes, records, strands⟩ := stranded
  intro sameReads
  have baseTree := spells.wellFormed.isTree
  have expandedShows := spells.builds.wellFormed.shows
  have absent : ∀ key, base.layout.Within top key → top ≠ key → ¬ changes.overlay.Holds key := by
    intro key within
    refine baseTree.induction (motive := fun key => base.layout.Within top key → top ≠ key →
      ¬ changes.overlay.Holds key) key within.holds ?_ ?_ within
    · intro key isRoot within different
      exact absurd (isRoot.within_iff.mp within) different
    · rintro key parent isChild - inductionHypothesis within different ⟨⟨above, payload⟩, found⟩
      have higher := ((Layout.within_iff_of_isChild isChild baseTree).mp within).resolve_left different
      have told := sameReads.parent key
      obtain ⟨standing, there⟩ := isChild
      rw [expandedShows.parent, spells.layout_of_covers ⟨top, refers, within, different⟩, there,
        result_parent spells.wellFormed strands.admitted records (Changes.shown_of_overlay found),
        Except.ok.injEq, Option.filter_eq_some_iff] at told
      obtain rfl : above = some parent := told.1
      have isChild' : changes.overlay.IsChild key parent := ⟨payload, found⟩
      by_cases same : top = parent
      · subst same
        exact strands.alone key isChild'
      · exact inductionHypothesis higher same (records.isTree_overlay.parent_holds isChild')
  obtain ⟨within, different⟩ := strands.below key inside
  have gone := Layout.not_holds_iff.mp (absent key within different)
  have deleted := (strands.gone key inside).resolve_left (absent key within different)
  have told := sameReads.contains key
  rw [result_contains strands.admitted records, expandedShows.contains,
    spells.layout_of_covers ⟨top, refers, within, different⟩, Changes.shown_of_deleted gone deleted] at told
  obtain ⟨standing, there⟩ := within.holds
  rw [there] at told
  cases told

end Buffer

namespace Synchronization

open Buffer (Stranded)

variable {source base expanded : Store C} {top key : Key} {lost : Key → Prop}
  {progress last : Synchronization (Buffer C)} {parent : Option Key} {payload : Payload C}
  (spells : source.Spells base expanded) (refers : source.Refers top)

include spells refers

/-! ## Going on with a stranded node -/

/-- A visit of a row that is not above the tree-reference keeps nodes stranded. -/
theorem stranded_of_visit [DecidableEq C] (found : source.layout key = some ⟨parent, payload⟩)
    (outside : ¬ source.layout.Within key top)
    (stranded : progress.destination.Stranded source base top lost)
    (ok : (visit source.tree key : Edit (Synchronization (Buffer C)) Unit).effect progress =
      (.ok (), last)) :
    last.destination.Stranded source base top lost ∧ last.seen = progress.seen.insert key ∧
      ∀ other ∈ progress.covered, other ∈ last.covered := by
  have sourceShows := spells.refers.wellFormed.shows
  have payloadRead : (source.tree.payload key).result = .ok payload :=
    Buffer.result_payload_of_found (Buffer.result_node_base found)
  have parentRead : (source.tree.parent key).result = .ok parent := by
    rw [sourceShows.parent, found]
  rw [visit, Edit.effect_liftM_bind payloadRead, Edit.effect_liftM_bind parentRead,
    Edit.effect_bind_of_ok (effect_tree progress)] at ok
  obtain ⟨same, -, ok⟩ := Edit.effect_liftM_bind_eq_ok ok
  obtain ⟨⟨⟩, middle, wrote, ok⟩ := Edit.effect_bind_eq_ok ok
  cases ok
  rw [Edit.effect_when] at wrote
  split at wrote
  case isFalse =>
    cases wrote
    exact ⟨stranded, rfl, fun _ inside => inside⟩
  rw [write, Edit.effect_bind_of_ok (Edit.effect_report _ progress)] at wrote
  obtain ⟨told, onward, edited, wrote⟩ := Edit.effect_bind_eq_ok wrote
  rw [edit, Edit.effect_onPart, Prod.mk.injEq] at edited
  obtain ⟨inserted, rfl⟩ := edited
  have stranded := stranded.insert spells refers found outside (Edit.effect_eq_of_result inserted)
  rw [Edit.effect_bind_of_ok (effect_tree _)] at wrote
  obtain ⟨through, -, wrote⟩ := Edit.effect_liftM_bind_eq_ok wrote
  obtain ⟨⟨⟩, covering, covers, wrote⟩ := Edit.effect_bind_eq_ok wrote
  cases wrote
  rw [Edit.effect_when] at covers
  split at covers
  · cases covers
    exact ⟨stranded, rfl, fun other inside => Store.mem_insert_iff.mpr (.inr inside)⟩
  · cases covers
    exact ⟨stranded, rfl, fun _ inside => inside⟩

/-- Visits of rows that are not above the tree-reference keep nodes stranded. -/
theorem stranded_of_visits [DecidableEq C] {keys : List Key}
    (visited : ∀ key ∈ keys, source.layout.Holds key ∧ ¬ source.layout.Within key top)
    (stranded : progress.destination.Stranded source base top lost)
    (ok : (keys.forM (visit source.tree : Key → Edit (Synchronization (Buffer C)) Unit)).effect
      progress = (.ok ⟨⟩, last)) :
    last.destination.Stranded source base top lost ∧
      (∀ key, key ∈ last.seen ↔ key ∈ progress.seen ∨ key ∈ keys) ∧
      ∀ other ∈ progress.covered, other ∈ last.covered := by
  induction keys generalizing progress with
  | nil =>
      cases ok
      exact ⟨stranded, fun key => by simp, fun _ inside => inside⟩
  | cons first keys inductionHypothesis =>
      rw [List.forall_mem_cons] at visited
      obtain ⟨⟨⟨⟨parent, payload⟩, found⟩, outside⟩, visited⟩ := visited
      obtain ⟨⟨⟩, middle, done, ok⟩ := Edit.effect_bind_eq_ok ok
      obtain ⟨stranded, seen, covered⟩ := stranded_of_visit spells refers found outside stranded done
      obtain ⟨stranded, seen_iff, covered'⟩ := inductionHypothesis visited stranded ok
      refine ⟨stranded, fun key => ?_, fun other inside => covered' other (covered other inside)⟩
      rw [seen_iff, seen, Store.mem_insert_iff, List.mem_cons, or_assoc, or_left_comm, eq_comm]

/-- A child of another node of the source is in the overlay if it is a base node below the
tree-reference. -/
theorem free_of_children {changes : Changes C} {buffer : Buffer C} {children : List Key}
    (records : buffer.Records base changes) (admitted : changes.Admitted base)
    (stands : source.layout.Holds key) (different : top ≠ key)
    (told : (buffer.tree.children key).result = .ok children) :
    ∀ child ∈ children, base.layout.Within top child → top = child ∨ changes.overlay.Holds child := by
  have holds : (changes.shown base).Holds key := by
    rw [Layout.holds_iff_ne_none]
    intro absent
    rw [Buffer.result_children_of_absent admitted records absent] at told
    cases told
  intro child inside within
  rcases Buffer.shown_cases admitted holds with ⟨holds, notLazy⟩ | ⟨back, holds⟩
  · rw [Buffer.result_children_of_overlay admitted records holds notLazy, Except.ok.injEq] at told
    subst told
    exact .inr ((Buffer.mem_overlay_childList records).mp inside).holds
  · rw [Buffer.result_children_of_readsBack spells.wellFormed admitted records back holds,
      Except.ok.injEq] at told
    subst told
    have isChild := ((Buffer.mem_kept_childList spells.wellFormed records).mp inside).1
    refine ((Layout.within_iff_of_isChild isChild spells.wellFormed.isTree).mp within).imp id fun higher => ?_
    exact absurd (spells.eq_of_within refers stands higher) different

/-- A sweep comes to no base node below the tree-reference that is not in the overlay. -/
theorem free_of_staleKeys {changes : Changes C} {buffer : Buffer C} {seen covered : KeySet}
    {stale : List Key} (records : buffer.Records base changes) (admitted : changes.Admitted base)
    (stands : ∀ key ∈ seen, source.layout.Holds key) (covers : top ∈ covered)
    (told : (staleKeys buffer.tree seen covered).result = .ok stale) :
    ∀ key ∈ stale, key ∉ seen ∧
      (base.layout.Within top key → top = key ∨ changes.overlay.Holds key) := by
  have baseTree := spells.wellFormed.isTree
  let Free (key : Key) : Prop := base.layout.Within top key → top = key ∨ changes.overlay.Holds key
  rw [staleKeys] at told
  obtain ⟨root, rootTold, told⟩ := Read.result_bind_eq_ok told
  cases root with
  | none =>
      cases told
      exact fun _ impossible => absurd impossible List.not_mem_nil
  | some root =>
      obtain ⟨⟨⟨⟩, found⟩, swept, told⟩ := Read.result_bind_eq_ok told
      cases told
      have isRoot := Buffer.isRoot_of_rootKey spells.allContent spells.wellFormed admitted records rootTold
      have start : Free root := by
        intro within
        rcases Changes.holds_shown_cases isRoot.holds with holds | ⟨absent, kept, -⟩
        · exact .inr holds
        · rw [Changes.isRoot_shown_of_kept absent kept] at isRoot
          exact .inl (isRoot.within_iff.mp within)
      have swept : ([root].forM (depthFirst (findStale buffer.tree seen covered)
          buffer.tree.levels)).effect [] = (.ok ⟨⟩, found) :=
        (Edit.effect_forM_cons_of_ok (Edit.effect_of_result_toRead swept)).trans rfl
      refine (Edit.after_forM_depthFirst (fun found => ∀ key ∈ found, key ∉ seen ∧ Free key)
        (fun _ key => Free key) ?_ (fun _ inside => absurd inside List.not_mem_nil)
        (fun key inside => ?_) swept).1
      · intro found key next after unseen free handled
        rw [findStale] at handled
        split at handled
        · rename_i new
          cases handled
          have fresh : key ∉ seen := by
            intro inside
            rw [Std.TreeSet.contains_iff_mem.mpr inside] at new
            cases new
          refine ⟨fun other inside => ?_, fun _ impossible => ?_, fun _ => id⟩
          · rcases List.mem_append.mp inside with inside | inside
            · exact unseen other inside
            · rw [List.mem_singleton.mp inside]
              exact ⟨fresh, free⟩
          · exact absurd impossible List.not_mem_nil
        · split at handled
          · cases handled
            exact ⟨unseen, fun _ impossible => absurd impossible List.not_mem_nil, fun _ => id⟩
          · rename_i old uncovered
            obtain ⟨children, childrenTold, handled⟩ := Edit.effect_liftM_bind_eq_ok handled
            cases handled
            have inside : key ∈ seen := by simpa using old
            have different : top ≠ key := by
              rintro rfl
              exact uncovered (Std.TreeSet.contains_iff_mem.mpr covers)
            refine ⟨unseen, fun child among => ?_, fun _ => id⟩
            exact free_of_children spells refers records admitted (stands key inside) different childrenTold
              child (List.mem_reverse.mp among)
      · rw [List.mem_singleton.mp inside]
        exact start

/-- The sweep deletes nothing above the tree-reference, and keeps nodes stranded. -/
theorem stranded_of_sweep (stands : ∀ key, key ∈ progress.seen ↔ source.layout.Holds key)
    (covers : top ∈ progress.covered) (stranded : progress.destination.Stranded source base top lost)
    (ok : (sweep : Edit (Synchronization (Buffer C)) Unit).effect progress = (.ok (), last))
    (inside : lost key) : ∃ lost : Key → Prop,
      last.destination.Stranded source base top lost ∧ lost key := by
  obtain ⟨changes, records, strands⟩ := stranded
  let wider (key : Key) : Prop :=
    (base.layout.Within top key ∧ top ≠ key) ∧ (changes.overlay.Holds key ∨ changes.deleted key)
  have stranded : progress.destination.Stranded source base top wider :=
    ⟨changes, records, { strands with below := fun _ => And.left, gone := fun _ => And.right }⟩
  rw [sweep, Edit.effect_current_bind] at ok
  obtain ⟨stale, told, ok⟩ := Edit.effect_liftM_bind_eq_ok ok
  obtain ⟨⟨⟩, swept, deleted, ok⟩ := Edit.effect_bind_eq_ok ok
  have free := free_of_staleKeys spells refers records strands.admitted
    (fun key inside => (stands key).mp inside) covers told
  have deletes : ∀ key ∈ stale, Edit.Keeps
      (fun progress : Synchronization (Buffer C) => progress.destination.Stranded source base top wider)
      (deleteKey key) := by
    intro key inside progress stranded
    obtain ⟨unseen, free⟩ := free key inside
    refine Buffer.keeps_delete_of_stranded spells refers (fun within => ?_) (fun within => ?_)
      progress.destination stranded
    · by_cases same : top = key
      · exact .inl same
      · exact .inr ⟨⟨within, same⟩, .inl ((free within).resolve_left same)⟩
    · exact unseen ((stands key).mpr within.top_holds)
  have stranded := (Edit.keeps_forM_of_mem deletes).of_ok stranded deleted
  have unchanged : last = swept := by
    rw [Edit.effect_bind_of_ok (effect_tree swept)] at ok
    cases ok
    rfl
  exact ⟨wider, unchanged ▸ stranded, strands.below key inside, strands.gone key inside⟩

end Synchronization

end VersionedTrees
