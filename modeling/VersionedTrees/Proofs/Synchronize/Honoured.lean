import VersionedTrees.Proofs.Synchronize.Equal
import VersionedTrees.Proofs.Synchronize.Underway

/-!
# Honoured tree-references

A buffer that is synchronized with a source shows the expansion of the source, its tree-references
included, if no node of the overlay keeps a place of its own that it has below a tree-reference in the
expansion (`Synchronization.exists_synchronize_cleared`). The rows of the source are visited one after
the other, and what is left of the overlay is swept away after that.
-/

namespace VersionedTrees

variable {C : Type}

namespace Synchronization

variable {source base expanded : Store C} {first : Layout C} {changes : Changes C}
  {progress : Synchronization (Buffer C)} {rows mid rest : List (Layout.Row C)} {row : Layout.Row C}

section Visiting

variable (spells : source.Spells base expanded) (firstTree : first.IsTree)
  (records : progress.destination.Records base changes)
  (underway : Underway source base expanded first (rows.map Prod.fst) changes)
  (roots : ∀ key, (changes.shown base).IsRoot key → source.layout.IsRoot key)

include spells records underway roots

/-- A row can be stored under its key. For a tree-reference, what it covers is restored after that. -/
theorem exists_stored_row (split : source.rows = rows ++ row :: rest) : ∃ last stored,
    (Editable.insert row.2.parent (.exactly row.1) row.2.payload : Edit (Buffer C) Key).effect
      progress.destination = (do
        Edit.when row.2.payload.isTreeReference (Buffer.restore row.1)
        return row.1 : Edit (Buffer C) Key).effect stored ∧
    Underway source base expanded first (rows.map Prod.fst) last ∧
    last.Enters base row.1 row.2 ∧
    (row.2.payload.isTreeReference = false → last.Fits base row.1 row.2) ∧
    stored.Records base (last.place row.1 row.2) := by
  have baseFormed := spells.wellFormed
  have found : source.layout row.1 = some row.2 := spells.refers.wellFormed.layout_of_split split
  have accepts : (changes.shown base).Accepts row.1 row.2.parent :=
    spells.refers.wellFormed.accepts_of_split split (underway.sound.isTree_shown baseFormed.isTree)
      (underway.aligned spells split).sameParent fun _ => roots
  obtain ⟨prepared, last, stored, inserted, unfolded, enters, fits, records', opens⟩ :=
    Buffer.exists_insert_exactly records underway.sound baseFormed spells.allContent
      (spells.admits found) accepts
  exact ⟨last, stored, inserted, underway.unfold baseFormed.isTree (fun _ => spells.base_holds) unfolded
    opens fun other opened top refers => opened_apart spells found opened refers, enters, fits, records'⟩

include firstTree

/-- A row that is not in place is inserted as the expansion has it. -/
theorem exists_insert_row (split : source.rows = rows ++ row :: rest)
    (clears : source.Refers row.1 → source.Clears base first row.1) : ∃ after next,
      (Editable.insert row.2.parent (.exactly row.1) row.2.payload : Edit (Buffer C) Key).effect
        progress.destination = (.ok row.1, after) ∧
      after.Records base next ∧
      Underway source base expanded first (rows.map Prod.fst ++ [row.1]) next := by
  have baseFormed := spells.wellFormed
  have found : source.layout row.1 = some row.2 := spells.refers.wellFormed.layout_of_split split
  obtain ⟨last, stored, inserted, underway', enters, fits, records'⟩ :=
    exists_stored_row spells records underway roots split
  obtain ⟨key, parent, payload⟩ := row
  have plain : payload.isTreeReference = false → ∃ after next,
      (Editable.insert parent (.exactly key) payload : Edit (Buffer C) Key).effect
        progress.destination = (.ok key, after) ∧
      after.Records base next ∧
      Underway source base expanded first (rows.map Prod.fst ++ [key]) next := by
    intro notReference
    rw [notReference] at inserted
    exact ⟨stored, _, inserted, records', underway'.place baseFormed spells found (fits notReference)
      records'.isTree_overlay (new_of_split spells split)⟩
  cases payload with
  | content value => exact plain rfl
  | nodeReference reference => exact plain rfl
  | treeReference reference =>
      obtain rfl : reference = ⟨base.id, key⟩ := spells.reference_eq found
      have refers : source.Refers key := ⟨parent, _, found⟩
      have returns : last.Returns base key parent :=
        { sound := underway'.sound
          intact := underway'.intact
          enters
          isTree := records'.isTree_overlay
          clear := fun other within holds => underway'.within_of_clears spells split firstTree
            (clears refers) refers within holds }
      obtain ⟨after, restored, records'', sound⟩ := records'.restored baseFormed returns
      refine ⟨after, _, ?_, records'',
        underway'.restore spells split firstTree rfl returns sound⟩
      exact inserted.trans (Edit.effect_bind_of_ok restored)

/-- After its visit a row is shown as the expansion has it, and a tree-reference is covered. -/
theorem exists_visit_row [DecidableEq C] (split : source.rows = rows ++ row :: rest)
    (clears : source.Refers row.1 → source.Clears base first row.1) : ∃ after next written,
      (visit source.tree row.1 : Edit (Synchronization (Buffer C)) Unit).effect progress = (.ok (),
        { destination := after
          seen := progress.seen.insert row.1
          covered :=
            if row.2.payload.isTreeReference then progress.covered.insert row.1 else progress.covered
          written }) ∧
      after.Records base next ∧
      Underway source base expanded first (rows.map Prod.fst ++ [row.1]) next := by
  have baseFormed := spells.wellFormed
  have sourceShows := spells.refers.wellFormed.shows
  have shows := records.shows spells.allContent baseFormed underway.sound
  have found : source.layout row.1 = some row.2 := spells.refers.wellFormed.layout_of_split split
  by_cases same : changes.shown base row.1 = some row.2
  · have notReference := underway.sound.not_isReference_shown spells.allContent same
    refine ⟨progress.destination, changes, progress.written, ?_, records,
      underway.skip spells found notReference same⟩
    rw [effect_visit_of_unchanged sourceShows shows found same,
      Payload.isTreeReference_eq_false notReference]
    rfl
  · obtain ⟨after, next, inserted, records', underway'⟩ :=
      exists_insert_row spells firstTree records underway roots split clears
    have shows' := records'.shows spells.allContent baseFormed underway'.sound
    refine ⟨after, next, progress.written + 1, ?_, records', underway'⟩
    have read := shows'.node row.1
    rw [underway'.shown_eq row.1 (List.mem_append_right _ (List.mem_singleton_self _)),
      spells.layout_of_source found, Option.map_some] at read
    rw [effect_visit_of_written sourceShows shows found same inserted read]
    have differs : row.2.payload.isTreeReference = true → base.lend row.2.payload ≠ row.2.payload := by
      intro isTreeReference equal
      have notReference :=
        spells.allContent.not_isReference_lend (spells.refers.resolves row.1 row.2 found)
      rw [equal] at notReference
      rw [Payload.isTreeReference_eq_false notReference] at isTreeReference
      cases isTreeReference
    rw [Option.any_some]
    cases isTreeReference : row.2.payload.isTreeReference with
    | false => rfl
    | true =>
        rw [decide_eq_true (differs isTreeReference)]
        rfl

end Visiting

/-- Of the rows that were visited, the tree-references are covered. -/
theorem mem_covered_iff {covered : KeySet} {key : Key} (found : source.layout row.1 = some row.2) :
    key ∈ (if row.2.payload.isTreeReference then covered.insert row.1 else covered) ↔
      key ∈ covered ∨ key = row.1 ∧ source.Refers key := by
  have refers_iff := Store.refers_iff found
  split
  case isTrue isTreeReference =>
    rw [Store.mem_insert_iff, or_comm, eq_comm]
    refine or_congr_right (and_iff_left_of_imp ?_).symm
    rintro rfl
    exact refers_iff.mpr isTreeReference
  case isFalse plain =>
    refine (or_iff_left ?_).symm
    rintro ⟨rfl, refers⟩
    exact plain (refers_iff.mp refers)

/-- Among the first rows of a source is its root. -/
theorem exists_root_of_split (wellFormed : source.WellFormed) (split : source.rows = rows ++ rest)
    (nonempty : rows ≠ []) : ∃ root, source.layout.IsRoot root ∧ root ∈ rows.map Prod.fst := by
  cases rows with
  | nil => exact absurd rfl nonempty
  | cons row rows => exact ⟨row.1, wellFormed.isRoot_of_split split, List.mem_cons_self⟩

/-- Rows can be visited one after the other, as long as the overlay is cleared for the tree-references
among them. -/
theorem exists_visitRows_underway [DecidableEq C] (spells : source.Spells base expanded)
    (firstTree : first.IsTree) (records : progress.destination.Records base changes)
    (underway : Underway source base expanded first (rows.map Prod.fst) changes)
    (roots : ∀ key, (changes.shown base).IsRoot key → source.layout.IsRoot key)
    (split : source.rows = rows ++ (mid ++ rest))
    (clears : ∀ row ∈ mid, source.Refers row.1 → source.Clears base first row.1) : ∃ last next,
      ((mid.map Prod.fst).forM
        (visit source.tree : Key → Edit (Synchronization (Buffer C)) Unit)).effect progress =
          (.ok ⟨⟩, last) ∧
      last.destination.Records base next ∧
      Underway source base expanded first ((rows ++ mid).map Prod.fst) next ∧
      (∀ key, (next.shown base).IsRoot key → source.layout.IsRoot key) ∧
      (∀ key, key ∈ last.seen ↔ key ∈ progress.seen ∨ key ∈ mid.map Prod.fst) ∧
      ∀ key, key ∈ last.covered ↔ key ∈ progress.covered ∨
        key ∈ mid.map Prod.fst ∧ source.Refers key := by
  induction mid generalizing rows changes progress with
  | nil =>
      refine ⟨progress, changes, rfl, records, ?_, roots, fun key => by simp, fun key => by simp⟩
      rwa [List.append_nil]
  | cons row mid inductionHypothesis =>
      have found : source.layout row.1 = some row.2 := spells.refers.wellFormed.layout_of_split split
      obtain ⟨after, next, written, visited, records', underway'⟩ := exists_visit_row spells firstTree
        records underway roots split (clears row List.mem_cons_self)
      let middle : Synchronization (Buffer C) :=
        { destination := after
          seen := progress.seen.insert row.1
          covered :=
            if row.2.payload.isTreeReference then progress.covered.insert row.1 else progress.covered
          written }
      have records' : middle.destination.Records base next := records'
      have underway' : Underway source base expanded first ((rows ++ [row]).map Prod.fst) next := by
        rwa [List.map_append]
      have split' : source.rows = (rows ++ [row]) ++ (mid ++ rest) := by
        rw [split, List.append_assoc]
        rfl
      obtain ⟨root, isRoot, visitedRoot⟩ := exists_root_of_split spells.refers.wellFormed split'
        (List.append_ne_nil_of_right_ne_nil rows (List.cons_ne_nil row []))
      obtain ⟨last, final, ok, records'', underway'', roots', seen_iff, covered_iff⟩ :=
        inductionHypothesis records' underway'
        (fun _ => underway'.isRoot_of_shown spells visitedRoot isRoot) split'
        fun other inside => clears other (List.mem_cons_of_mem _ inside)
      rw [List.append_assoc] at underway''
      refine ⟨last, final, (Edit.effect_forM_cons_of_ok visited).trans ok, records'', underway'', roots',
        fun key => ?_, fun key => ?_⟩
      · rw [seen_iff, Store.mem_insert_iff, List.map_cons, List.mem_cons, or_assoc, or_left_comm, eq_comm]
      · rw [covered_iff, mem_covered_iff found, List.map_cons, List.mem_cons, or_and_right, or_assoc]

/-- When all rows were visited, the expansion is in place. -/
theorem Underway.written {seen covered : KeySet} (spells : source.Spells base expanded)
    (expandedFormed : expanded.WellFormed)
    (underway : Underway source base expanded first (source.rows.map Prod.fst) changes)
    (roots : ∀ key, (changes.shown base).IsRoot key → source.layout.IsRoot key)
    (seen_iff : ∀ key, key ∈ seen ↔ source.layout.Holds key)
    (covered_iff : ∀ key, key ∈ covered ↔ source.Refers key) :
    Written (changes.shown base) expanded.layout seen covered := by
  have sourceFormed := spells.refers.wellFormed
  have baseTree := spells.wellFormed.isTree
  have done_iff : ∀ key, key ∈ source.rows.map Prod.fst ↔ source.layout.Holds key :=
    fun key => sourceFormed.mem_map_rows_iff
  -- what is below a tree-reference is read from the base
  have kept : ∀ {key}, source.Covers base key → changes.overlay key = none ∧ ¬ changes.deleted key := by
    rintro key ⟨top, refers, within, different⟩
    have isLazy := underway.isLazy top ((done_iff top).mpr refers.holds) refers
    exact underway.intact.below baseTree isLazy within different
  exact
    { isTree := underway.sound.isTree_shown baseTree
      targetTree := expandedFormed.isTree
      agrees := fun key holds => by
        rcases spells.holds_iff.mp holds with stands | covers
        · exact underway.shown_eq key ((done_iff key).mpr stands)
        · rw [Changes.shown_of_kept (kept covers).1 (kept covers).2, spells.layout_of_covers covers]
      root := fun key isRoot => spells.holds_iff.mpr (.inl (roots key isRoot).holds)
      seen_holds := fun key inside => spells.holds_iff.mpr (.inl ((seen_iff key).mp inside))
      covered_seen := fun top inside => (seen_iff top).mpr ((covered_iff top).mp inside).holds
      owned := fun key holds => by
        rcases spells.holds_iff.mp holds with stands | ⟨top, refers, within, -⟩
        · exact .inl ((seen_iff key).mpr stands)
        · exact .inr ⟨top, (covered_iff top).mpr refers,
            spells.within_expanded expandedFormed.isTree refers within⟩
      alone := fun top inside key stands within => by
        have refers := (covered_iff top).mp inside
        have stands := (seen_iff key).mp stands
        refine spells.alone refers ?_
        rwa [← spells.aligned.within_iff expandedFormed.isTree sourceFormed.isTree stands stands]
      closed := fun top inside parent within child isChild => by
        have refers := (covered_iff top).mp inside
        obtain ⟨upper, refers', below, alone⟩ : ∃ upper, source.Refers upper ∧
            base.layout.Within upper parent ∧ ¬ changes.overlay.IsChild child parent := by
          rcases spells.holds_iff.mp within.holds with stands | covers
          · rw [spells.aligned.within_iff expandedFormed.isTree sourceFormed.isTree stands stands] at within
            obtain rfl := spells.alone refers within
            have isLazy := underway.isLazy top ((done_iff top).mpr stands) refers
            exact ⟨top, refers, baseTree.within_self (spells.base_holds refers),
              underway.sound.leaf top child isLazy⟩
          · have absent := (kept covers).1
            obtain ⟨upper, refers', below, -⟩ := covers
            refine ⟨upper, refers', below, fun isChild' => ?_⟩
            exact Layout.holds_iff_ne_none.mp (underway.sound.isTree.parent_holds isChild') absent
        obtain ⟨-, isChild', -⟩ := (underway.sound.isChild_shown_iff.mp isChild).resolve_left alone
        refine spells.holds_iff.mpr (.inr ⟨upper, refers', isChild'.within below, ?_⟩)
        rintro rfl
        exact isChild'.not_within baseTree below }

/-- Before the visit the buffer has no other root than the source. The overlay is as it was, or empty. -/
theorem exists_opened {buffer : Buffer C} (spells : source.Spells base expanded)
    (records : buffer.Records base changes) (sound : changes.Sound base)
    (intact : changes.Intact base) : ∃ (opened : Buffer C) (next : Changes C),
      (dropOtherRoot source.tree : Edit (Synchronization (Buffer C)) Unit).effect
        { destination := buffer } = (.ok (), { destination := opened }) ∧
      opened.Records base next ∧ next.Sound base ∧ next.Intact base ∧
      (∀ key, (next.shown base).IsRoot key → source.layout.IsRoot key) ∧
      ((∀ key, (changes.shown base).IsRoot key → source.layout.IsRoot key) ∧ next = changes ∨
        (¬ ∀ key, (changes.shown base).IsRoot key → source.layout.IsRoot key) ∧
          ∀ key, next.overlay key = none) := by
  let start : Synchronization (Buffer C) := { destination := buffer }
  have represented : Buffer.ShowsIntact base 0 start.destination (changes.shown base) :=
    ⟨changes, records, sound, intact, rfl⟩
  have deletes := (Buffer.writes spells.wellFormed spells.allContent).toDeletes
  obtain ⟨opened, _, first, dropped, ⟨next, records', sound', intact', rfl⟩, kept⟩ :=
    exists_dropOtherRoot deletes spells.refers.wellFormed.shows represented
  refine ⟨opened, next, dropped, records', sound', intact', ?_⟩
  rcases kept with ⟨agree, same, -, -⟩ | ⟨differ, empty⟩
  · have same : opened = buffer := same
    have changes_eq : next = changes := by
      rw [← records'.changes_eq, same, records.changes_eq]
    subst changes_eq
    exact ⟨agree, .inl ⟨agree, rfl⟩⟩
  · refine ⟨fun key isRoot => absurd (empty key) (Layout.holds_iff_ne_none.mp isRoot.holds),
      .inr ⟨differ, fun key => (Changes.shown_eq_none_iff.mp (empty key)).1⟩⟩

/-- A buffer shows the expansion of a source once it was synchronized with it, if the overlay is cleared for
all tree-references, or dropped with another root. -/
theorem exists_synchronize_cleared [DecidableEq C] {buffer : Buffer C}
    (spells : source.Spells base expanded) (expandedFormed : expanded.WellFormed)
    (records : buffer.Records base changes) (sound : changes.Sound base)
    (intact : changes.Intact base)
    (clears : (∀ key, (changes.shown base).IsRoot key → source.layout.IsRoot key) →
      ∀ top, source.Refers top → source.Clears base changes.overlay top) : ∃ after : Buffer C,
      (synchronize source.tree).effect buffer = (.ok (), after) ∧
      after.tree.Shows expanded.layout := by
  have sourceFormed := spells.refers.wellFormed
  obtain ⟨opened, first, dropped, records', sound', intact', roots, kept⟩ :=
    exists_opened spells records sound intact
  have clears' : ∀ row ∈ source.rows, source.Refers row.1 → source.Clears base first.overlay row.1 := by
    intro row _ refers
    rcases kept with ⟨agree, rfl⟩ | ⟨-, empty⟩
    · exact clears agree row.1 refers
    · exact fun key _ _ holds => absurd (empty key) (Layout.holds_iff_ne_none.mp holds)
  let ready : Synchronization (Buffer C) := { destination := opened }
  have records' : ready.destination.Records base first := records'
  have split : source.rows = [] ++ (source.rows ++ []) := (List.append_nil _).symm
  obtain ⟨progress, next, visited, records'', underway, roots', seen_iff, covered_iff⟩ :=
    exists_visitRows_underway spells sound'.isTree records' (underway_start sound' intact') roots split
      clears'
  have written : Written (next.shown base) expanded.layout progress.seen progress.covered := by
    refine underway.written spells expandedFormed roots' (fun key => ?_) fun key => ?_
    · rw [seen_iff, or_iff_right Std.TreeSet.not_mem_emptyc, sourceFormed.mem_map_rows_iff]
    · rw [covered_iff, or_iff_right Std.TreeSet.not_mem_emptyc, sourceFormed.mem_map_rows_iff]
      exact and_iff_right_of_imp Store.Refers.holds
  have represented : Buffer.ShowsIntact base 0 progress.destination (next.shown base) :=
    ⟨next, records'', underway.sound, underway.intact, rfl⟩
  have deletes := (Buffer.writes spells.wellFormed spells.allContent).toDeletes
  obtain ⟨after, stale, swept, represented', -⟩ := exists_sweep deletes written represented
  refine ⟨after, ?_, deletes.shows represented'⟩
  have ran : (run source.tree : Edit (Synchronization (Buffer C)) Unit).effect { destination := buffer } =
      (.ok (), { progress with destination := after }) := by
    rw [run_eq, sourceFormed.visit_eq]
    exact (Edit.effect_bind_of_ok dropped).trans ((Edit.effect_bind_of_ok visited).trans swept)
  rw [effect_synchronize, ran]

end Synchronization

end VersionedTrees
