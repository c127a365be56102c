import VersionedTrees.Proofs.Store.Rows
import VersionedTrees.Proofs.Synchronize.Sweep

/-!
# Writing a source into a destination

A synchronization drops a root that is not that of the source and then goes through the rows of the
source. A row that is in place is left alone, and any other is inserted. In pre-order the parent of a
row is in place when its turn comes, and since the keys above it are the same as in the source, the row is
not put below itself (`Synchronization.accepts_of_split`).

So a destination whose insertions place what they are given, and whose deletions take out subtrees,
becomes equal to the source (`Synchronization.exists_synchronize`).
-/

namespace VersionedTrees

variable {C : Type}

namespace Synchronization

variable {τ : Type} [Editable τ C]

theorem effect_tree (progress : Synchronization τ) :
    (tree (τ := τ) (C := C)).effect progress =
      (.ok (Editable.tree progress.destination), progress) := rfl

theorem run_eq [DecidableEq C] (source : Tree C) :
    (run source : Edit (Synchronization τ) Unit) = (do
      dropOtherRoot source
      source.visit (visit source)
      sweep) := rfl

theorem effect_synchronize [DecidableEq C] (source : Tree C) (destination : τ) :
    (synchronize source).effect destination =
      (((run source).effect { destination }).1, ((run source).effect { destination }).2.destination) :=
  rfl

/-! ## Visiting a row -/

section Visits

variable [DecidableEq C] {tree source : Tree C} {layout sourceLayout : Layout C} {key told : Key}
  {parent : Option Key} {payload : Payload C} {progress : Synchronization τ} {after : τ}

theorem result_isUnchanged (shows : tree.Shows layout) (key : Key) (parent : Option Key)
    (payload : Payload C) : ∃ same, (isUnchanged tree key parent payload).result = .ok same ∧
      (same = true ↔ layout key = some ⟨parent, payload⟩) := by
  rw [isUnchanged, Read.result_bind_of_ok (shows.node key)]
  cases found : layout key with
  | none => exact ⟨false, rfl, iff_of_false nofun nofun⟩
  | some standing =>
      obtain ⟨above, old⟩ := standing
      rw [Option.map_some, Option.some.injEq, Standing.mk.injEq]
      by_cases samePayload : old = payload
      · have told : (tree.parent key).result = .ok above := by rw [shows.parent, found]
        refine ⟨decide (above = parent), ?_, ?_⟩
        · exact (congrArg Read.result (if_pos samePayload)).trans (Read.result_bind_of_ok told)
        · rw [decide_eq_true_iff, and_iff_left samePayload]
      · exact ⟨false, congrArg Read.result (if_neg samePayload),
          iff_of_false nofun fun both => samePayload both.2⟩

theorem result_readsThrough {stored : Option (Node C)} (told : (tree.node key).result = .ok stored)
    (payload : Payload C) : (readsThrough tree key payload).result =
      .ok (payload.isTreeReference && stored.any fun node => decide (node.payload ≠ payload)) := by
  rw [readsThrough]
  cases payload.isTreeReference with
  | false => rfl
  | true => rw [if_pos rfl, Read.result_bind_of_ok told]; rfl

section Visited

variable (sourceShows : source.Shows sourceLayout)
  (shows : (Editable.tree progress.destination).Shows layout)
  (found : sourceLayout key = some ⟨parent, payload⟩)

include sourceShows shows found

theorem effect_visit : ∃ same, (same = true ↔ layout key = some ⟨parent, payload⟩) ∧
    (visit source key : Edit (Synchronization τ) Unit).effect progress = (do
      Edit.when (!same) (write key parent payload)
      Edit.modify fun progress => { progress with seen := progress.seen.insert key } :
        Edit (Synchronization τ) Unit).effect progress := by
  have payloadRead : (source.payload key).result = .ok payload := by
    have node := sourceShows.node key
    rw [found] at node
    exact Read.result_bind_of_ok node
  have parentRead : (source.parent key).result = .ok parent := by
    rw [sourceShows.parent, found]
  obtain ⟨same, compared, same_iff⟩ := result_isUnchanged shows key parent payload
  refine ⟨same, same_iff, ?_⟩
  rw [visit]
  refine (Edit.effect_liftM_bind payloadRead).trans ((Edit.effect_liftM_bind parentRead).trans ?_)
  exact (Edit.effect_bind_of_ok (effect_tree progress)).trans (Edit.effect_liftM_bind compared)

/-- A row that is in place is left alone. -/
theorem effect_visit_of_unchanged (same : layout key = some ⟨parent, payload⟩) :
    (visit source key : Edit (Synchronization τ) Unit).effect progress =
      (.ok (), { progress with seen := progress.seen.insert key }) := by
  obtain ⟨unchanged, same_iff, visited⟩ := effect_visit sourceShows shows found
  rw [visited, same_iff.mpr same]
  rfl

/-- Any other row is written. It covers its key if the destination shows something else than the
tree-reference that was written. -/
theorem effect_visit_of_written {stored : Option (Node C)}
    (changed : layout key ≠ some ⟨parent, payload⟩)
    (inserted : (Editable.insert parent (.exactly key) payload : Edit τ Key).effect
      progress.destination = (.ok told, after))
    (read : ((Editable.tree after).node key).result = .ok stored) :
    (visit source key : Edit (Synchronization τ) Unit).effect progress = (.ok (),
      { destination := after
        seen := progress.seen.insert key
        covered :=
          if payload.isTreeReference && stored.any fun node => decide (node.payload ≠ payload) then
            progress.covered.insert key
          else
            progress.covered
        written := progress.written + 1 }) := by
  obtain ⟨unchanged, same_iff, visited⟩ := effect_visit sourceShows shows found
  have differs : unchanged = false := by
    rw [← Bool.not_eq_true, same_iff]
    exact changed
  let onward : Synchronization τ := { progress with destination := after }
  have edited : (edit (Editable.insert parent (.exactly key) payload : Edit τ Key)).effect progress =
      (.ok told, onward) := by
    rw [edit, Edit.effect_onPart, inserted]
  have through := result_readsThrough read payload
  have wrote : (write key parent payload : Edit (Synchronization τ) Unit).effect progress = (.ok (),
      { onward with
        covered :=
          if payload.isTreeReference && stored.any fun node => decide (node.payload ≠ payload) then
            progress.covered.insert key
          else
            progress.covered
        written := progress.written + 1 }) := by
    rw [write, Edit.effect_bind_of_ok (Edit.effect_report _ progress), Edit.effect_bind_of_ok edited]
    refine (Edit.effect_bind_of_ok (effect_tree onward)).trans ((Edit.effect_liftM_bind through).trans ?_)
    split
    · rename_i covers
      rw [covers]
      rfl
    · rename_i bare
      rw [Bool.not_eq_true _ |>.mp bare]
      rfl
  rw [visited, differs]
  exact Edit.effect_bind_of_ok wrote

end Visited

end Visits

/-! ## Dropping another root -/

section Writing

variable {represents : Nat → τ → Layout C → Prop} {accepted : Payload C → Prop} {count : Nat}
  {layout : Layout C} {progress : Synchronization τ}

/-- A root is dropped with all that is below it, unless it is the root of the source. -/
theorem exists_dropOtherRoot {source : Tree C} {sourceLayout : Layout C}
    (deletes : Deletes represents) (sourceShows : source.Shows sourceLayout)
    (represented : represents count progress.destination layout) : ∃ after extra first,
      (dropOtherRoot source : Edit (Synchronization τ) Unit).effect progress =
        (.ok (), { progress with destination := after }) ∧
      represents (count + extra) after first ∧
      ((∀ key, layout.IsRoot key → sourceLayout.IsRoot key) ∧ after = progress.destination ∧
          extra = 0 ∧ first = layout ∨
        (¬ ∀ key, layout.IsRoot key → sourceLayout.IsRoot key) ∧ ∀ key, first key = none) := by
  have shows := deletes.shows represented
  obtain ⟨sourceRoot, sourceTold, -, sourceRoot_iff⟩ := sourceShows.root
  obtain ⟨root, told, -, root_iff⟩ := shows.root
  rw [dropOtherRoot, Edit.effect_liftM_bind sourceTold, Edit.effect_bind_of_ok (effect_tree progress),
    Edit.effect_liftM_bind told]
  cases root with
  | none =>
      refine ⟨progress.destination, 0, layout, rfl, represented, .inl ⟨fun key isRoot => ?_, rfl, rfl, rfl⟩⟩
      cases (root_iff key).mpr isRoot
  | some root =>
      have isRoot := (root_iff root).mp rfl
      by_cases same : sourceRoot = some root
      · have isRoot' := (sourceRoot_iff root).mp same
        refine ⟨progress.destination, 0, layout, ?_, represented,
          .inl ⟨fun key other => ?_, rfl, rfl, rfl⟩⟩
        · rw [Edit.effect_when, if_neg (by simpa using same)]
        · rwa [shows.isTree.single key root other isRoot]
      · obtain ⟨after, deleted, represented'⟩ := deletes.delete represented isRoot.holds
        refine ⟨after, 1, layout.prune root, ?_, represented',
          .inr ⟨fun kept => same ((sourceRoot_iff root).mpr (kept root isRoot)),
            shows.isTree.prune_root isRoot⟩⟩
        rw [Edit.effect_when, if_pos (by simpa using same), edit, Edit.effect_onPart, deleted]

/-! ## Writing all rows -/

/-- A relation between states and layouts as in `Deletes`, in which to insert an accepted payload
under a key puts it there. -/
structure Writes (represents : Nat → τ → Layout C → Prop) (accepted : Payload C → Prop) : Prop
    extends Deletes represents where
  insert : ∀ {count destination layout key parent payload}, represents count destination layout →
    accepted payload → layout.Accepts key parent → ∃ after,
      (Editable.insert parent (.exactly key) payload : Edit τ Key).effect destination =
        (.ok key, after) ∧
      represents (count + 1) after (layout.place key ⟨parent, payload⟩)

variable [DecidableEq C] (writes : Writes represents accepted)

include writes

/-- After its visit a row is in place. Nothing was written if it was there. -/
theorem exists_visit {source : Tree C} {sourceLayout : Layout C} {key : Key} {standing : Standing C}
    (sourceShows : source.Shows sourceLayout) (found : sourceLayout key = some standing)
    (allowed : accepted standing.payload) (accepts : layout.Accepts key standing.parent)
    (represented : represents count progress.destination layout) : ∃ after written,
      (visit source key : Edit (Synchronization τ) Unit).effect progress =
        (.ok (), ⟨after, progress.seen.insert key, progress.covered, written⟩) ∧
      represents (count + if layout key ≠ some standing then 1 else 0) after
        (layout.place key standing) := by
  have shows := writes.shows represented
  by_cases same : layout key = some standing
  · refine ⟨progress.destination, progress.written, effect_visit_of_unchanged sourceShows shows found same,
      ?_⟩
    rw [if_neg (not_not.mpr same), Layout.place_eq_self same]
    exact represented
  · obtain ⟨after, inserted, represented'⟩ := writes.insert represented allowed accepts
    refine ⟨after, progress.written + 1, ?_, ?_⟩
    · have read := (writes.shows represented').node key
      rw [Layout.place_self, Option.map_some] at read
      rw [effect_visit_of_written sourceShows shows found same inserted read, Option.any_some,
        decide_eq_false (not_not.mpr rfl), Bool.and_false]
      rfl
    · rw [if_pos same]
      exact represented'

/-- When some rows of a source are in place, the others can be visited one after the other. -/
theorem exists_visitRows {source : Store C} {first : Layout C} {done rest : List (Layout.Row C)}
    (wellFormed : source.WellFormed)
    (allowed : ∀ key standing, source.layout key = some standing → accepted standing.payload)
    (roots : ∀ key, first.IsRoot key → source.layout.IsRoot key)
    (split : source.rows = done ++ rest)
    (represented : represents count progress.destination (first.plant done)) : ∃ last,
      ((rest.map Prod.fst).forM (visit source.tree : Key → Edit (Synchronization τ) Unit)).effect
        progress = (.ok ⟨⟩, last) ∧
      represents (count + rest.countP fun row => first row.1 ≠ some row.2) last.destination
        (first.plant source.rows) ∧
      last.covered = progress.covered ∧
      ∀ key, key ∈ last.seen ↔ key ∈ progress.seen ∨ key ∈ rest.map Prod.fst := by
  induction rest generalizing done count progress with
  | nil =>
      refine ⟨progress, rfl, ?_, rfl, fun key => by simp⟩
      rw [split, List.append_nil]
      exact represented
  | cons row rest inductionHypothesis =>
      have nodup := wellFormed.nodup_rows
      rw [split, List.map_append, List.map_cons] at nodup
      have doneNodup := (List.nodup_append.mp nodup).1
      have notDone : row.1 ∉ done.map Prod.fst := fun inside =>
        (List.nodup_append.mp nodup).2.2 row.1 inside row.1 List.mem_cons_self rfl
      have found : source.layout row.1 = some row.2 := wellFormed.layout_of_split split
      have sameParent : ∀ key ∈ done.map Prod.fst, (first.plant done key).map (·.parent) =
          (source.layout key).map (·.parent) := by
        intro key inside
        obtain ⟨⟨other, standing⟩, among, rfl⟩ := List.mem_map.mp inside
        rw [Layout.plant_of_mem doneNodup among,
          wellFormed.mem_rows_iff.mp (split ▸ List.mem_append_left _ among)]
      have accepts : (first.plant done).Accepts row.1 row.2.parent := by
        refine wellFormed.accepts_of_split split (writes.shows represented).isTree sameParent ?_
        rintro rfl
        exact roots
      obtain ⟨after, written, visited, represented'⟩ := exists_visit writes wellFormed.shows found
        (allowed _ _ found) accepts represented
      let middle : Synchronization τ :=
        ⟨after, progress.seen.insert row.1, progress.covered, written⟩
      rw [Layout.plant_of_not_mem notDone] at represented'
      have planted : (first.plant done).place row.1 row.2 = first.plant (done ++ [row]) := by
        rw [Layout.plant_append]
        rfl
      rw [planted] at represented'
      have represented' : represents _ middle.destination _ := represented'
      obtain ⟨last, ok, represented'', covered, seen_iff⟩ :=
        inductionHypothesis (by rw [split, List.append_assoc]; rfl) represented'
      refine ⟨last, (Edit.effect_forM_cons_of_ok visited).trans ok, ?_, covered, fun key => ?_⟩
      · rw [List.countP_cons, Nat.add_comm (List.countP _ rest), ← Nat.add_assoc]
        simpa using represented''
      · rw [seen_iff, Store.mem_insert_iff, List.map_cons, List.mem_cons, or_assoc, or_left_comm, eq_comm]

/-! ## Synchronizing -/

/-- A destination that can be written becomes equal to the source. Where the destination had no
other root, this takes as many edits as there are rows that were not in place and stale keys. -/
theorem exists_synchronize {source : Store C} {destination : τ} (wellFormed : source.WellFormed)
    (allowed : ∀ key standing, source.layout key = some standing → accepted standing.payload)
    (represented : represents count destination layout) : ∃ after total,
      (synchronize source.tree).effect destination = (.ok (), after) ∧
      represents total after source.layout ∧
      ((∀ key, layout.IsRoot key → source.layout.IsRoot key) → ∃ stale : List Key,
        stale.Nodup ∧ (∀ key, key ∈ stale ↔ layout.Stale source.layout key) ∧
        total = count + (source.rows.countP fun row => layout row.1 ≠ some row.2) + stale.length) := by
  let start : Synchronization τ := { destination }
  have represented : represents count start.destination layout := represented
  obtain ⟨opened, extra, first, dropped, represented', kept⟩ :=
    exists_dropOtherRoot writes.toDeletes wellFormed.shows represented
  have roots : ∀ key, first.IsRoot key → source.layout.IsRoot key := by
    rcases kept with ⟨agree, -, -, rfl⟩ | ⟨-, empty⟩
    · exact agree
    · exact fun key isRoot => absurd (empty key) (Layout.holds_iff_ne_none.mp isRoot.holds)
  let ready : Synchronization τ := { start with destination := opened }
  have represented' : represents (count + extra) ready.destination (first.plant []) := represented'
  have split : source.rows = [] ++ source.rows := rfl
  obtain ⟨progress, visited, represented'', covered, seen_iff⟩ :=
    exists_visitRows writes wellFormed allowed roots split represented'
  have seen_iff : ∀ key, key ∈ progress.seen ↔ source.layout.Holds key := fun key => by
    rw [seen_iff, wellFormed.mem_map_rows_iff, or_iff_right Std.TreeSet.not_mem_emptyc]
  have agrees : ∀ key, source.layout.Holds key → first.plant source.rows key = source.layout key := by
    rintro key ⟨standing, found⟩
    rw [Layout.plant_of_mem wellFormed.nodup_rows (wellFormed.mem_rows_iff.mpr found), found]
  have others : ∀ key, ¬ source.layout.Holds key → first.plant source.rows key = first key :=
    fun key lacks => Layout.plant_of_not_mem fun inside =>
      lacks (wellFormed.mem_map_rows_iff.mp inside)
  have extended : (first.plant source.rows).Extends source.layout :=
    { isTree := (writes.shows represented'').isTree
      targetTree := wellFormed.isTree
      agrees
      root := fun key isRoot => by
        by_contra lacks
        rw [Layout.isRoot_iff, others key lacks, ← Layout.isRoot_iff] at isRoot
        exact lacks (roots key isRoot).holds }
  have written : Written (first.plant source.rows) source.layout progress.seen progress.covered :=
    { extended with
      seen_holds := fun key inside => (seen_iff key).mp inside
      covered_seen := by simp [covered, ready, start]
      owned := fun key holds => .inl ((seen_iff key).mpr holds)
      alone := by simp [covered, ready, start]
      closed := by simp [covered, ready, start] }
  obtain ⟨after, stale, swept, represented''', nodup, mem_iff⟩ :=
    exists_sweep writes.toDeletes written represented''
  refine ⟨after, _, ?_, represented''', fun agree => ⟨stale, nodup, fun key => ?_, ?_⟩⟩
  · have ran : (run source.tree : Edit (Synchronization τ) Unit).effect start =
        (.ok (), { progress with destination := after }) := by
      rw [run_eq, wellFormed.visit_eq]
      exact (Edit.effect_bind_of_ok dropped).trans ((Edit.effect_bind_of_ok visited).trans swept)
    rw [effect_synchronize, ran]
  · obtain ⟨-, -, -, rfl⟩ := kept.resolve_right fun dropped => dropped.1 agree
    rw [mem_iff]
    refine and_congr_right fun lacks => exists_congr fun parent => and_congr_right fun _ => ?_
    rw [Layout.isChild_iff, Layout.isChild_iff, others key lacks]
  · obtain ⟨-, -, rfl, rfl⟩ := kept.resolve_right fun dropped => dropped.1 agree
    rfl

end Writing

end Synchronization

end VersionedTrees
