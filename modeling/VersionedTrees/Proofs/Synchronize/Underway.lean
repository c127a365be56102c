import VersionedTrees.Proofs.Buffer.Restored
import VersionedTrees.Proofs.Buffer.Storing
import VersionedTrees.Proofs.Synchronize.Spelled

/-!
# Synchronizing a buffer with tree-references

While a buffer is synchronized with a source that has tree-references, `Synchronization.Underway` holds:
the nodes that were visited are shown as in the expansion of the source, and the rest of the overlay is as
it was in the beginning. What the expansion has below a tree-reference is the base subtree. A node of that
subtree that had a place of its own in the overlay would stay there, unless a tree-reference takes it out
in time (`Store.Clears`).
-/

namespace VersionedTrees

variable {C : Type}

namespace Store

/-- A tree-reference takes a key out of an overlay when it is stored: the key is below it, and no node of
the source that the key is below comes before it, since such a node would be moved away with the key. -/
structure Lifts (source : Store C) (overlay : Layout C) (top key : Key) : Prop where
  within : overlay.Within top key
  between : ∀ other, source.layout.Holds other → overlay.Within top other →
    overlay.Within other key → top = other ∨ source.Precedes top other

/-- All overlay nodes of the base subtree of a tree-reference are taken out of the overlay before it is
stored, or with it. -/
def Clears (source base : Store C) (overlay : Layout C) (top : Key) : Prop :=
  ∀ key, base.layout.Within top key → top ≠ key → overlay.Holds key →
    ∃ other, source.Refers other ∧ ¬ source.Precedes top other ∧ source.Lifts overlay other key

end Store

namespace Changes

variable {base : Store C} {changes : Changes C} {key : Key} {standing : Standing C}

/-- Over a base with content alone, what is shown is content. -/
theorem Valid.not_isReference_shown (valid : changes.Valid base) (allContent : base.AllContent)
    (shown : changes.shown base key = some standing) : standing.payload.isReference = false := by
  cases found : changes.overlay key with
  | none =>
      have kept : ¬ changes.deleted key := by
        intro deleted
        rw [shown_of_deleted found deleted] at shown
        cases shown
      rw [shown_of_kept found kept] at shown
      exact allContent.not_isReference shown
  | some stored =>
      rw [shown_of_overlay found, Option.some.injEq] at shown
      subst shown
      exact allContent.not_isReference_lend (valid.admits key stored found).resolves

end Changes

namespace Synchronization

/-- The changes of a buffer after the visit of some rows of a source. `first` is the overlay before. -/
structure Underway (source base expanded : Store C) (first : Layout C) (done : List Key)
    (changes : Changes C) : Prop where
  sound : changes.Sound base
  intact : changes.Intact base
  shown_eq : ∀ key ∈ done, changes.shown base key = expanded.layout key
  isLazy : ∀ top ∈ done, source.Refers top → changes.IsLazy top
  sameParent : ∀ key, key ∉ done → first.Holds key → changes.overlay.Holds key →
    (changes.overlay key).map (·.parent) = (first key).map (·.parent)
  lost : ∀ key, first.Holds key → ¬ changes.overlay.Holds key →
    changes.deleted key ∨ source.Covers base key ∨ ¬ base.layout.Holds key
  holds_iff : ∀ key, source.Covers base key → (changes.overlay.Holds key ↔
    first.Holds key ∧ ∀ top ∈ done, source.Refers top → ¬ source.Lifts first top key)

section Steps

variable {source base expanded : Store C} {first : Layout C} {done : List Key}
  {changes next : Changes C} {key top : Key} {parent : Option Key} {payload : Payload C}

/-- At the beginning no row was visited. -/
theorem underway_start (sound : changes.Sound base) (intact : changes.Intact base) :
    Underway source base expanded changes.overlay [] changes where
  sound := sound
  intact := intact
  shown_eq _ inside := absurd inside List.not_mem_nil
  isLazy _ inside := absurd inside List.not_mem_nil
  sameParent _ _ _ _ := rfl
  lost _ holds absent := absurd holds absent
  holds_iff _ _ := (and_iff_left fun _ inside => absurd inside List.not_mem_nil).symm

variable (spells : source.Spells base expanded)
  (underway : Underway source base expanded first done changes)

/-! ## Unfolding -/

include spells in
/-- What is opened to store a node of the source is not below its tree-references. -/
theorem opened_apart {other : Key} (found : source.layout key = some ⟨parent, payload⟩)
    (opened : Buffer.OpenedFor base key parent payload other) (refers : source.Refers top) :
    ¬ base.layout.Within top other := by
  have holds : source.layout.Holds key := ⟨_, found⟩
  intro within
  rcases opened with ⟨above, rfl, near⟩ | ⟨rfl, notReference⟩ | ⟨different, higher⟩
  · have isChild : source.layout.IsChild key above := ⟨payload, found⟩
    have held := spells.refers.wellFormed.isTree.parent_holds isChild
    have within : base.layout.Within top above := by
      rcases near with rfl | higher
      · exact within
      · exact within.trans higher
    obtain rfl := spells.eq_of_within refers held within
    obtain ⟨higher, reference, found'⟩ := refers
    exact spells.refers.leaf top key higher reference found' isChild
  · obtain rfl := spells.eq_of_within refers holds within
    obtain ⟨higher, reference, found'⟩ := refers
    rw [found] at found'
    cases found'
    cases notReference
  · obtain rfl := spells.eq_of_within refers holds (within.trans higher)
    exact different (higher.antisymm within)

namespace Underway

include underway

/-- Keys below a tree-reference do not come into the overlay, as long as nothing is opened there. -/
theorem holds_of_unfolded {after : Buffer C} {opened : Key → Prop} (baseTree : base.layout.IsTree)
    (unfolded : Buffer.Unfolded base changes after next) (opens : Buffer.Opens changes next opened)
    (apart : ∀ other, opened other → ∀ top, source.Refers top → ¬ base.layout.Within top other)
    (covers : source.Covers base key) (holds : next.overlay.Holds key) : changes.overlay.Holds key := by
  by_contra absent
  have absent := Layout.not_holds_iff.mp absent
  obtain ⟨top, refers, within, different⟩ := covers
  have kept : ¬ changes.deleted key := by
    intro deleted
    have shown : changes.shown base key = none := Changes.shown_of_deleted absent deleted
    rw [← unfolded.shown_eq] at shown
    exact Layout.holds_iff_ne_none.mp (Changes.holds_shown_of_overlay holds) shown
  rcases within.holds.isRoot_or_isChild with isRoot | ⟨above, isChild⟩
  · exact different (isRoot.within_iff.mp within)
  · have higher := ((Layout.within_iff_of_isChild isChild baseTree).mp within).resolve_left different
    have back := underway.sound.covered key above absent kept isChild
    have kept' : ¬ next.deleted key := by rwa [unfolded.deleted_eq]
    have gone := unfolded.sound.exclusive key above holds kept' isChild
    exact apart above (opens above back gone) top refers higher

/-- To unfold a buffer above the tree-references keeps a synchronization underway. -/
theorem unfold {after : Buffer C} {opened : Key → Prop} (baseTree : base.layout.IsTree)
    (baseHolds : ∀ top, source.Refers top → base.layout.Holds top)
    (unfolded : Buffer.Unfolded base changes after next) (opens : Buffer.Opens changes next opened)
    (apart : ∀ other, opened other → ∀ top, source.Refers top → ¬ base.layout.Within top other) :
    Underway source base expanded first done next where
  sound := unfolded.sound
  intact := unfolded.intact underway.intact
  shown_eq key inside := by rw [unfolded.shown_eq, underway.shown_eq key inside]
  isLazy top inside refers := by
    have isLazy := underway.isLazy top inside refers
    have back : next.ReadsBack top := by
      by_contra gone
      exact apart top (opens top (.inl isLazy) gone) top refers
        (baseTree.within_self (baseHolds top refers))
    refine back.resolve_right fun absent => ?_
    exact Layout.holds_iff_ne_none.mp (unfolded.holds top isLazy.holds) absent.1
  sameParent key new held holds := by
    have there : changes.overlay.Holds key := by
      by_contra absent
      rcases underway.lost key held absent with deleted | covers | lacks
      · have shown : changes.shown base key = none :=
          Changes.shown_of_deleted (Layout.not_holds_iff.mp absent) deleted
        rw [← unfolded.shown_eq] at shown
        exact Layout.holds_iff_ne_none.mp (Changes.holds_shown_of_overlay holds) shown
      · exact absent (underway.holds_of_unfolded baseTree unfolded opens apart covers holds)
      · have shown := Changes.shown_eq_none_iff.mpr
          ⟨Layout.not_holds_iff.mp absent, .inr (Layout.not_holds_iff.mp lacks)⟩
        rw [← unfolded.shown_eq] at shown
        exact Layout.holds_iff_ne_none.mp (Changes.holds_shown_of_overlay holds) shown
    rw [← underway.sameParent key new held there]
    obtain ⟨standing, found⟩ := holds
    obtain ⟨standing', found'⟩ := there
    have same := congrFun unfolded.shown_eq key
    rw [Changes.shown_of_overlay found, Changes.shown_of_overlay found', Option.some.injEq,
      Standing.mk.injEq] at same
    rw [found, found', Option.map_some, Option.map_some, same.1]
  lost key held absent := by
    rw [unfolded.deleted_eq]
    exact underway.lost key held fun holds => absent (unfolded.holds key holds)
  holds_iff key covers := by
    rw [← underway.holds_iff key covers]
    exact ⟨underway.holds_of_unfolded baseTree unfolded opens apart covers, unfolded.holds key⟩

end Underway

/-! ## Visiting a row that is no tree-reference -/

include spells underway in
/-- Once the root of the source was visited, it is the root that is shown. -/
theorem Underway.isRoot_of_shown {root : Key} (visited : root ∈ done) (isRoot : source.layout.IsRoot root)
    (shown : (changes.shown base).IsRoot key) : source.layout.IsRoot key := by
  obtain ⟨payload, found⟩ := isRoot
  have isRoot' : (changes.shown base).IsRoot root := by
    refine ⟨base.lend payload, ?_⟩
    rw [underway.shown_eq root visited, spells.layout_of_source found]
  rw [(underway.sound.isTree_shown spells.wellFormed.isTree).single key root shown isRoot']
  exact ⟨payload, found⟩

theorem not_refers (found : source.layout key = some ⟨parent, payload⟩)
    (notReference : payload.isTreeReference = false) : ¬ source.Refers key := by
  rw [Store.refers_iff found, notReference]
  exact Bool.false_ne_true

/-- A row that is no tree-reference adds nothing to what holds of all tree-references so far. -/
theorem forall_refers_append_iff {holds : Key → Prop} (plain : ¬ source.Refers key) :
    (∀ top ∈ done ++ [key], source.Refers top → holds top) ↔
      ∀ top ∈ done, source.Refers top → holds top := by
  constructor
  · exact fun all top inside => all top (List.mem_append_left _ inside)
  · intro all top inside refers
    rcases List.mem_append.mp inside with inside | inside
    · exact all top inside refers
    · rw [List.mem_singleton.mp inside] at refers
      exact absurd refers plain

theorem ne_of_new {other : Key} (new : key ∉ done) (inside : other ∈ done) : key ≠ other := by
  rintro rfl
  exact new inside

namespace Underway

include underway

/-- A row that is in place changes nothing. -/
theorem skip (spells : source.Spells base expanded)
    (found : source.layout key = some ⟨parent, payload⟩) (notReference : payload.isReference = false)
    (same : changes.shown base key = some ⟨parent, payload⟩) :
    Underway source base expanded first (done ++ [key]) changes := by
  have plain := not_refers found (Payload.isTreeReference_eq_false notReference)
  refine
    { underway with
      shown_eq := fun other inside => ?_
      isLazy := (forall_refers_append_iff plain).mpr underway.isLazy
      sameParent := fun other new =>
        underway.sameParent other fun inside => new (List.mem_append_left _ inside)
      holds_iff := fun other covers => ?_ }
  · rcases List.mem_append.mp inside with inside | inside
    · exact underway.shown_eq other inside
    · obtain rfl := List.mem_singleton.mp inside
      rw [same, spells.layout_of_source found, base.lend_of_not_isReference notReference]
  · rw [underway.holds_iff other covers, forall_refers_append_iff plain]

/-- A row that is no tree-reference is placed. -/
theorem place (baseFormed : base.WellFormed) (spells : source.Spells base expanded)
    (found : source.layout key = some ⟨parent, payload⟩) (fits : changes.Fits base key ⟨parent, payload⟩)
    (isTree : (changes.place key ⟨parent, payload⟩).overlay.IsTree) (new : key ∉ done) :
    Underway source base expanded first (done ++ [key]) (changes.place key ⟨parent, payload⟩) := by
  have plain := not_refers found fits.notReference
  refine
    { sound := underway.sound.place baseFormed fits isTree
      intact := underway.intact.place fits
      shown_eq := fun other inside => ?_
      isLazy := (forall_refers_append_iff plain).mpr fun top inside refers =>
        (Changes.isLazy_place_of_ne (ne_of_new new inside)).mpr (underway.isLazy top inside refers)
      sameParent := fun other new' held holds => ?_
      lost := fun other held absent => ?_
      holds_iff := fun other covers => ?_ }
  · rw [Changes.shown_place]
    rcases List.mem_append.mp inside with inside | inside
    · rw [Layout.place_of_ne (ne_of_new new inside), underway.shown_eq other inside]
    · obtain rfl := List.mem_singleton.mp inside
      rw [Layout.place_self, spells.layout_of_source found]
  · obtain ⟨new', different⟩ := not_or.mp (mt List.mem_append.mpr new')
    have different : key ≠ other := fun same => different (List.mem_singleton.mpr same.symm)
    have holds := Changes.holds_of_place different holds
    rw [Changes.overlay_place, Layout.place_of_ne different, underway.sameParent other new' held holds]
  · obtain ⟨-, absent⟩ := Changes.absent_of_place (Layout.not_holds_iff.mp absent)
    exact underway.lost other held (Layout.not_holds_iff.mpr absent)
  · have different : key ≠ other := by
      rintro rfl
      rw [spells.absent_of_covers covers] at found
      cases found
    rw [forall_refers_append_iff plain, ← underway.holds_iff other covers, Layout.Holds,
      Changes.overlay_place, Layout.place_of_ne different, Layout.Holds]

end Underway

end Steps

/-! ## Visiting a tree-reference -/

section Restoring

variable {source base expanded : Store C} {first : Layout C} {changes next : Changes C} {key : Key}
  {rows rest : List (Layout.Row C)} {row : Layout.Row C} (spells : source.Spells base expanded)
  (split : source.rows = rows ++ row :: rest)
  (underway : Underway source base expanded first (rows.map Prod.fst) changes)

include spells split

theorem new_of_split : row.1 ∉ rows.map Prod.fst := by
  have nodup := spells.refers.wellFormed.nodup_rows
  rw [split, List.map_append, List.map_cons] at nodup
  exact fun inside => (List.nodup_append.mp nodup).2.2 row.1 inside row.1 List.mem_cons_self rfl

theorem holds_of_mem (inside : key ∈ rows.map Prod.fst) : source.layout.Holds key := by
  rw [← spells.refers.wellFormed.mem_map_rows_iff, split, List.map_append]
  exact List.mem_append_left _ inside

namespace Underway

include underway

/-- What was visited has the parents that it has in the source. -/
theorem aligned : (changes.shown base).Aligned source.layout (· ∈ rows.map Prod.fst) where
  sameParent key inside := by
    rw [underway.shown_eq key inside,
      spells.aligned.sameParent key (holds_of_mem spells split inside)]
  closed _ _ := spells.refers.wellFormed.parent_mem_of_split split

/-- What was visited is not below the tree-reference that comes next. -/
theorem not_within_of_mem (refers : source.Refers row.1) (inside : key ∈ rows.map Prod.fst) :
    ¬ (changes.shown base).Within row.1 key := by
  rw [(underway.aligned spells split).within_iff
    (underway.sound.isTree_shown spells.wellFormed.isTree) spells.refers.wellFormed.isTree inside
    (holds_of_mem spells split inside)]
  intro within
  have same := spells.alone refers within
  exact new_of_split spells split (same ▸ inside)

/-- A tree-reference that takes a key out of the overlay of the beginning is above it when its turn
comes. -/
theorem within_of_lifts (firstTree : first.IsTree) (lifts : source.Lifts first row.1 key)
    (holds : changes.overlay.Holds key) : changes.overlay.Within row.1 key := by
  have isTree := underway.sound.isTree
  have held := lifts.within.holds
  revert lifts holds
  refine firstTree.induction key held ?_ ?_
  · intro key isRoot lifts holds
    rw [isRoot.within_iff.mp lifts.within]
    exact isTree.within_self holds
  · intro key above isChild _ inductionHypothesis lifts holds
    by_cases same : row.1 = key
    · rw [same]
      exact isTree.within_self holds
    · have higher := ((Layout.within_iff_of_isChild isChild firstTree).mp
        lifts.within).resolve_left same
      have new : key ∉ rows.map Prod.fst := by
        intro inside
        have precedes := (lifts.between key (holds_of_mem spells split inside) lifts.within
          (firstTree.within_self isChild.holds)).resolve_left same
        exact spells.refers.wellFormed.not_mem_of_precedes split precedes inside
      have isChild' : changes.overlay.IsChild key above := by
        rwa [Layout.isChild_iff, underway.sameParent key new isChild.holds holds, ← Layout.isChild_iff]
      refine isChild'.within (inductionHypothesis ⟨higher, fun other stands upper lower => ?_⟩
        (isTree.parent_holds isChild'))
      exact lifts.between other stands upper (isChild.within lower)

/-- What is below a tree-reference when its turn comes, and was in the overlay in the beginning, is
taken out. -/
theorem lifts_of_within (firstTree : first.IsTree) (refers : source.Refers row.1)
    (within : changes.overlay.Within row.1 key) (held : first.Holds key) :
    source.Lifts first row.1 key := by
  have isTree := underway.sound.isTree
  have holds := within.holds
  have self : ∀ {key}, row.1 = key → first.Holds key → source.Lifts first row.1 key := by
    rintro _ rfl held
    exact ⟨firstTree.within_self held, fun other _ upper lower => .inl (upper.antisymm lower)⟩
  revert within held
  refine isTree.induction key holds ?_ ?_
  · exact fun key isRoot within held => self (isRoot.within_iff.mp within) held
  · intro key above isChild _ inductionHypothesis within held
    by_cases same : row.1 = key
    · exact self same held
    · have higher := ((Layout.within_iff_of_isChild isChild isTree).mp within).resolve_left same
      have new : key ∉ rows.map Prod.fst := fun inside =>
        underway.not_within_of_mem spells split refers inside
          ((underway.sound.within_shown_iff isChild.holds).mpr within)
      have isChild' : first.IsChild key above := by
        rwa [Layout.isChild_iff, ← underway.sameParent key new held isChild.holds, ← Layout.isChild_iff]
      have lifts := inductionHypothesis higher (firstTree.parent_holds isChild')
      refine ⟨isChild'.within lifts.within, fun other stands upper lower => ?_⟩
      rcases (Layout.within_iff_of_isChild isChild' firstTree).mp lower with rfl | lower
      · exact spells.refers.wellFormed.precedes_of_not_mem split stands new
      · exact lifts.between other stands upper lower

/-- Where the overlay is cleared for it, the next tree-reference finds no key of its base subtree
elsewhere. -/
theorem within_of_clears (firstTree : first.IsTree) (clears : source.Clears base first row.1)
    (refers : source.Refers row.1) (within : base.layout.Within row.1 key)
    (holds : changes.overlay.Holds key) : changes.overlay.Within row.1 key := by
  by_cases same : row.1 = key
  · rw [same]
    exact underway.sound.isTree.within_self holds
  · obtain ⟨held, remains⟩ := (underway.holds_iff key ⟨row.1, refers, within, same⟩).mp holds
    obtain ⟨other, refers', notAfter, lifts⟩ := clears key within same held
    have there := refers'.holds
    have soon : other ∈ rows.map Prod.fst ∨ row.1 = other := by
      by_contra late
      obtain ⟨new, different⟩ := not_or.mp late
      exact (spells.refers.wellFormed.precedes_of_not_mem split there new).elim different notAfter
    rcases soon with inside | rfl
    · exact absurd lifts (remains other inside refers')
    · exact underway.within_of_lifts spells split firstTree lifts holds

/-- When a tree-reference has been stored and clears its base subtree, that subtree is shown below it. -/
theorem restore (firstTree : first.IsTree) {reference : Reference} {above : Option Key}
    (found : row.2 = ⟨above, .treeReference reference⟩) (returns : changes.Returns base row.1 above)
    (sound : (changes.restored base row.1 above).Sound base) :
    Underway source base expanded first (rows.map Prod.fst ++ [row.1])
      (changes.restored base row.1 above) := by
  have baseTree := spells.wellFormed.isTree
  have stands : source.layout row.1 = some ⟨above, .treeReference reference⟩ := by
    rw [← found]
    exact spells.refers.wellFormed.layout_of_split split
  have refers : source.Refers row.1 := ⟨above, reference, stands⟩
  have new := new_of_split spells split
  have outside : ∀ key ∈ rows.map Prod.fst, ¬ changes.overlay.Within row.1 key := by
    intro key inside within
    exact underway.not_within_of_mem spells split refers inside
      ((underway.sound.within_shown_iff within.holds).mpr within)
  refine
    { sound
      intact := returns.intact_restored baseTree
      shown_eq := fun key inside => ?_
      isLazy := fun key inside refers' => ?_
      sameParent := fun key new' held holds => ?_
      lost := fun key held absent => ?_
      holds_iff := fun key covers => ?_ }
  · rw [returns.shown_restored baseTree]
    rcases List.mem_append.mp inside with inside | inside
    · have apart : ¬ base.layout.Within row.1 key := fun within =>
        ne_of_new new inside (spells.eq_of_within refers (holds_of_mem spells split inside) within)
      rw [Layout.graft_of_outside apart, Layout.prune_of_not_within
        (underway.not_within_of_mem spells split refers inside), underway.shown_eq key inside]
    · obtain rfl := List.mem_singleton.mp inside
      obtain ⟨standing, there⟩ := returns.top_holds
      rw [Layout.graft_self baseTree there, spells.layout_of_source stands, spells.reference_eq stands,
        Store.lend_treeReference there]
  · rcases List.mem_append.mp inside with inside | inside
    · have isLazy : (changes.remove base row.1).IsLazy key :=
        Changes.isLazy_remove_iff.mpr ⟨underway.isLazy key inside refers', outside key inside⟩
      rwa [Changes.IsLazy, returns.overlay_restored_of_ne (ne_of_new new inside)]
    · obtain rfl := List.mem_singleton.mp inside
      exact ⟨above, _, returns.overlay_restored_self⟩
  · obtain ⟨new', different⟩ := not_or.mp (mt List.mem_append.mpr new')
    have different : row.1 ≠ key := fun same => different (List.mem_singleton.mpr same.symm)
    obtain ⟨holds, apart⟩ := (returns.holds_restored_iff different).mp holds
    rw [returns.overlay_restored_of_ne different, Changes.overlay_remove,
      Layout.prune_of_not_within apart, underway.sameParent key new' held holds]
  · have different : row.1 ≠ key := by
      rintro rfl
      exact absent ⟨_, returns.overlay_restored_self⟩
    by_cases there : base.layout.Holds key
    case neg => exact .inr (.inr there)
    by_cases within : base.layout.Within row.1 key
    · exact .inr (.inl ⟨row.1, refers, within, different⟩)
    · by_cases below : changes.overlay.Within row.1 key
      · exact .inl (returns.deleted_restored_of_within baseTree there within below)
      · have absent' : ¬ changes.overlay.Holds key := fun holds =>
          absent ((returns.holds_restored_iff different).mpr ⟨holds, below⟩)
        rw [returns.deleted_restored_of_not_within baseTree within]
        exact (underway.lost key held absent').imp_left .inl
  · have different : row.1 ≠ key := by
      rintro rfl
      rw [spells.absent_of_covers covers] at stands
      cases stands
    rw [returns.holds_restored_iff different, underway.holds_iff key covers, List.forall_mem_append,
      List.forall_mem_singleton, and_assoc]
    refine and_congr_right fun held => and_congr_right fun remains => ?_
    have holds := (underway.holds_iff key covers).mpr ⟨held, remains⟩
    constructor
    · exact fun apart _ lifts =>
        apart (underway.within_of_lifts spells split firstTree lifts holds)
    · exact fun all within =>
        all refers (underway.lifts_of_within spells split firstTree refers within held)

end Underway

end Restoring

end Synchronization

end VersionedTrees
