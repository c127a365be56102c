import VersionedTrees.Proofs.Buffer.PlainRuns
import VersionedTrees.Proofs.Buffer.Storing
import VersionedTrees.Proofs.Store.Runs
import VersionedTrees.Proofs.Synchronize.Writing

/-!
# Synchronized trees are equal

To synchronize with a store succeeds for every store, and for every change buffer that has no
tree-references to keep. Afterwards the destination reads as the source
(`Synchronization.synchronize_equals`).

A store counts its edits. With the root in place there is one edit for each key of the source that has to
be written and one for each key that hangs loose below the keys of the source, so that the second of two
synchronizations does nothing.
-/

namespace VersionedTrees

variable {C : Type}

namespace Store

variable {destination source store : Store C} {generation count : Nat} {layout : Layout C}

/-- Whether a key is not in a destination as it is in a source: it is absent there, or has another
payload or parent. -/
def differs [DecidableEq C] (destination source : Store C) (key : Key) : Bool :=
  destination.layout key ≠ source.layout key

/-- Whether a key of a destination is absent from a source that has its parent. -/
def hangsLoose (destination source : Store C) (key : Key) : Bool :=
  !source.contains key && (destination.slot? key).any fun slot => slot.parent.any source.contains

/-- A store has a layout after a number of edits. -/
structure Counts (generation count : Nat) (store : Store C) (layout : Layout C) : Prop where
  wellFormed : store.WellFormed
  layout_eq : store.layout = layout
  generation_eq : store.generation = generation + count

/-- An edit that ends well counts as one. -/
theorem Counts.next {α : Type} {value : α} {next : Store C} {layout' : Layout C}
    (counts : Counts generation count store layout) (ends : store.Ends (.ok value, next))
    (becomes : store.Becomes layout' next) : Counts generation (count + 1) next layout' := by
  cases ends with
  | ok counted =>
      refine ⟨becomes.wellFormed, becomes.layout_eq, ?_⟩
      rw [counted, counts.generation_eq, Nat.add_assoc]

/-- A store takes any payload. -/
theorem writes (generation : Nat) :
    Synchronization.Writes (Counts (C := C) generation) fun _ => True where
  shows counts := counts.layout_eq ▸ counts.wellFormed.shows
  delete {_ store _ key} counts holds := by
    rw [← counts.layout_eq] at holds
    obtain ⟨next, ok, becomes⟩ := counts.wellFormed.delete holds
    have deleted : (Editable.delete key : Edit (Store C) Unit).effect store = (.ok (), next) :=
      (Edit.effect_attempt _ store).trans (by rw [ok])
    exact ⟨next, deleted, counts.next (deleted ▸ store.ends_delete key)
      (counts.layout_eq ▸ becomes)⟩
  insert {_ store _ key parent payload} counts _ accepts := by
    rw [← counts.layout_eq] at accepts
    obtain ⟨next, ok, becomes⟩ := counts.wellFormed.insert_accepted accepts payload
    exact ⟨next, ok, counts.next (ok ▸ store.ends_insert parent (.exactly key) payload)
      (counts.layout_eq ▸ becomes)⟩

/-- The keys of the rows of a store are its keys. -/
theorem WellFormed.map_rows_perm (wellFormed : store.WellFormed) :
    (store.rows.map Prod.fst).Perm store.keys := by
  have nodup : store.keys.Nodup := Std.TreeMap.nodup_keys
  refine (List.perm_ext_iff_of_nodup wellFormed.nodup_rows nodup).mpr fun key => ?_
  rw [wellFormed.mem_map_rows_iff, mem_keys_iff]

theorem WellFormed.countP_rows [DecidableEq C] (wellFormed : source.WellFormed)
    (destination : Store C) :
    (source.rows.countP fun row => destination.layout row.1 ≠ some row.2) =
      source.keys.countP (destination.differs source) := by
  rw [← wellFormed.map_rows_perm.countP_eq, List.countP_map]
  refine List.countP_congr fun row inside => ?_
  rw [Function.comp_apply, differs, wellFormed.mem_rows_iff.mp inside]

theorem hangsLoose_iff {key : Key} : destination.hangsLoose source key = true ↔
    destination.layout.Stale source.layout key := by
  rw [hangsLoose, Bool.and_eq_true, Bool.not_eq_true', ← Bool.not_eq_true, contains_iff_holds]
  refine and_congr_right fun _ => ?_
  constructor
  · intro loose
    obtain ⟨slot, found, above⟩ := (Option.any_eq_true _ _).mp loose
    obtain ⟨parent, same, stored⟩ := (Option.any_eq_true _ _).mp above
    refine ⟨parent, contains_iff_holds.mp stored, slot.payload, ?_⟩
    rw [layout_of_slot? found, same]
  · rintro ⟨parent, held, payload, found⟩
    obtain ⟨slot, found, same⟩ := Option.map_eq_some_iff.mp found
    have above : slot.parent = some parent := congrArg Standing.parent same
    rw [found, Option.any_some, above, Option.any_some]
    exact contains_iff_holds.mpr held

theorem countP_differs_eq_zero [DecidableEq C] (same : destination.layout = source.layout) :
    source.keys.countP (destination.differs source) = 0 := by
  rw [List.countP_eq_zero]
  intro key _ differs
  exact of_decide_eq_true differs (congrFun same key)

theorem countP_hangsLoose_eq_zero (same : destination.layout = source.layout) :
    destination.keys.countP (destination.hangsLoose source) = 0 := by
  rw [List.countP_eq_zero]
  intro key _ loose
  obtain ⟨lacks, parent, -, isChild⟩ := hangsLoose_iff.mp loose
  exact lacks (same ▸ isChild.holds)

theorem length_stale {stale : List Key} (nodup : stale.Nodup)
    (mem_iff : ∀ key, key ∈ stale ↔ destination.layout.Stale source.layout key) :
    stale.length = destination.keys.countP (destination.hangsLoose source) := by
  have keysNodup : destination.keys.Nodup := Std.TreeMap.nodup_keys
  rw [List.countP_eq_length_filter]
  refine List.Perm.length_eq
    ((List.perm_ext_iff_of_nodup nodup (keysNodup.filter _)).mpr fun key => ?_)
  rw [mem_iff, List.mem_filter, hangsLoose_iff, mem_keys_iff]
  exact (and_iff_right_of_imp fun stale => stale.2.elim fun _ below => below.2.holds).symm

end Store

namespace Buffer

variable {base : Store C}

/-- A buffer has changes that show a layout, however many edits led there. -/
def ShowsIntact (base : Store C) (_ : Nat) (buffer : Buffer C) (layout : Layout C) : Prop :=
  ∃ changes : Changes C, buffer.Records base changes ∧ changes.Sound base ∧ changes.Intact base ∧
    changes.shown base = layout

/-- A buffer takes content and deletes subtrees. -/
theorem writes (wellFormed : base.WellFormed) (allContent : base.AllContent) :
    Synchronization.Writes (ShowsIntact base) fun payload => payload.isReference = false where
  shows := by
    rintro _ buffer _ ⟨changes, records, sound, -, rfl⟩
    exact records.shows allContent wellFormed sound
  delete := by
    rintro _ buffer _ key ⟨changes, records, sound, intact, rfl⟩ holds
    obtain ⟨middle, last, reached, unfolded, inside⟩ :=
      unfolds_reach records sound wellFormed allContent holds
    obtain ⟨after, removed, records'⟩ :=
      unfolded.records.removeOverlaySubtree wellFormed unfolded.sound.admits inside
    have intact := unfolded.intact intact
    refine ⟨after, (Edit.effect_bind_of_ok reached).trans removed, _, records',
      unfolded.sound.remove wellFormed.isTree key, intact.remove wellFormed.isTree key, ?_⟩
    rw [unfolded.sound.shown_remove wellFormed.isTree intact inside, unfolded.shown_eq]
  insert := by
    rintro _ buffer _ key parent payload ⟨changes, records, sound, intact, rfl⟩ notReference accepts
    obtain ⟨content, rfl⟩ : ∃ content, payload = .content content := by
      cases payload with
      | content content => exact ⟨content, rfl⟩
      | nodeReference reference => cases notReference
      | treeReference reference => cases notReference
    obtain ⟨prepared, last, after, inserted, unfolded, -, fits, records', -⟩ :=
      exists_insert_exactly records sound wellFormed allContent
        (show base.Admits key (.content content) from trivial) accepts
    have fits := fits rfl
    refine ⟨after, inserted, _, records',
      unfolded.sound.place wellFormed fits records'.isTree_overlay,
      (unfolded.intact intact).place fits, ?_⟩
    rw [Changes.shown_place, unfolded.shown_eq]
    rfl

end Buffer

namespace Synchronization

variable [DecidableEq C] {source : Store C}

theorem exists_synchronize_store {destination : Store C} (wellFormed : source.WellFormed)
    (destinationFormed : destination.WellFormed) : ∃ after : Store C,
      (synchronize source.tree).effect destination = (.ok (), after) ∧
      after.WellFormed ∧ after.layout = source.layout ∧
      (destination.root = source.root → after.generation = destination.generation +
        source.keys.countP (destination.differs source) +
        destination.keys.countP (destination.hangsLoose source)) := by
  obtain ⟨after, total, synchronized, counts, agree⟩ :=
    exists_synchronize (Store.writes destination.generation) wellFormed (fun _ _ _ => trivial)
      (⟨destinationFormed, rfl, rfl⟩ : Store.Counts _ 0 destination destination.layout)
  refine ⟨after, synchronized, counts.wellFormed, counts.layout_eq, fun sameRoot => ?_⟩
  have roots : ∀ key, destination.layout.IsRoot key → source.layout.IsRoot key := by
    intro key
    rw [← destinationFormed.root, ← wellFormed.root, sameRoot]
    exact id
  obtain ⟨stale, nodup, mem_iff, rfl⟩ := agree roots
  rw [counts.generation_eq, Nat.zero_add, wellFormed.countP_rows, Store.length_stale nodup mem_iff,
    Nat.add_assoc]

/-- To synchronize a store or a change buffer never fails, and then it reads as the source. What is in
place is left alone: with the root in place, a store counts one edit for each key of the source that
differs and for each key that hangs loose, and the next synchronization counts none. -/
theorem synchronize_equals (reachable : source.Reachable) :
    (∀ destination : Store C, destination.Reachable → ∃ after again : Store C,
      (synchronize source.tree).effect destination = (.ok (), after) ∧
      after.tree.SameReads source.tree ∧
      (destination.root = source.root → after.generation = destination.generation +
        source.keys.countP (destination.differs source) +
        destination.keys.countP (destination.hangsLoose source)) ∧
      (synchronize source.tree).effect after = (.ok (), again) ∧
      again.generation = after.generation) ∧
    ∀ (base : Store C) (buffer : Buffer C), base.Reachable → base.AllContent → source.AllContent →
      PlainRun base buffer → ∃ after, (synchronize source.tree).effect buffer = (.ok (), after) ∧
        after.tree.SameReads source.tree := by
  have wellFormed := reachable.wellFormed
  constructor
  · intro destination destinationReachable
    obtain ⟨after, synchronized, afterFormed, layout_eq, generation_eq⟩ :=
      exists_synchronize_store wellFormed destinationReachable.wellFormed
    obtain ⟨again, synchronizedAgain, -, -, generation_eq'⟩ :=
      exists_synchronize_store wellFormed afterFormed
    have shows := afterFormed.shows
    rw [layout_eq] at shows
    refine ⟨after, again, synchronized, shows.sameReads wellFormed.shows, generation_eq,
      synchronizedAgain, ?_⟩
    have sameRoot : after.root = source.root := by
      ext root
      rw [afterFormed.root, layout_eq, ← wellFormed.root]
    rw [generation_eq' sameRoot, Store.countP_differs_eq_zero layout_eq,
      Store.countP_hangsLoose_eq_zero layout_eq, Nat.add_zero]
  · intro base buffer baseReachable allContent sourceContent run
    obtain ⟨changes, records, whole⟩ :=
      Buffer.isWhole_of_plainRun baseReachable.wellFormed allContent run
    have start : Buffer.ShowsIntact base 0 buffer (changes.shown base) :=
      ⟨changes, records, whole.toSound, whole.intact, rfl⟩
    obtain ⟨after, _, synchronized, represented, -⟩ :=
      exists_synchronize (Buffer.writes baseReachable.wellFormed allContent) wellFormed
        (fun _ _ found => sourceContent.not_isReference found) start
    obtain ⟨last, records', sound', -, shown_eq⟩ := represented
    have shows := records'.shows allContent baseReachable.wellFormed sound'
    rw [shown_eq] at shows
    exact ⟨after, synchronized, shows.sameReads wellFormed.shows⟩

/-- A chain in which the lower two nodes have changed places. -/
def turned : Store String :=
  Store.ofEdits ⟨2⟩
    [.insert none (.exactly (.number 1)) (.content "root"),
      .insert (some (.number 1)) (.exactly (.number 3)) (.content "leaf"),
      .insert (some (.number 3)) (.exactly (.number 2)) (.content "middle")]

/-- Two moves and a deletion turn a chain with one more node. -/
theorem synchronize_equals_turned :
    let destination := Store.ofEdits ⟨1⟩ (Store.chainEdits ++
      [.insert (some (.number 2)) (.exactly (.number 4)) (.content "other")])
    let buffer := Buffer.unchanged (.store Store.chain)
    turned.Reachable ∧ turned.AllContent ∧ destination.Reachable ∧ Store.chain.Reachable ∧
      Store.chain.AllContent ∧ PlainRun Store.chain buffer ∧
      (∃ after again : Store String, (synchronize turned.tree).effect destination = (.ok (), after) ∧
        after.tree.SameReads turned.tree ∧ after.generation = 4 + 2 + 1 ∧
        (synchronize turned.tree).effect after = (.ok (), again) ∧ again.generation = 7) ∧
      ∃ after, (synchronize turned.tree).effect buffer = (.ok (), after) ∧
        after.tree.SameReads turned.tree := by
  intro destination buffer
  have reachable : turned.Reachable := Store.reachable_ofEdits _ _
  have allContent : turned.AllContent := Store.allContent_iff_entries.mpr (by decide +kernel)
  have destinationReachable : destination.Reachable := Store.reachable_ofEdits _ _
  have chainReachable : Store.chain.Reachable := Store.reachable_ofEdits _ _
  have run : PlainRun Store.chain buffer := .fresh {} none
  obtain ⟨onStores, onBuffers⟩ := synchronize_equals reachable
  obtain ⟨after, again, synchronized, sameReads, counted, synchronizedAgain, kept⟩ :=
    onStores destination destinationReachable
  have generation_eq : after.generation = 4 + 2 + 1 := (counted (by decide +kernel)).trans (by
    decide +kernel)
  exact ⟨reachable, allContent, destinationReachable, chainReachable, Store.allContent_chain, run,
    ⟨after, again, synchronized, sameReads, generation_eq, synchronizedAgain,
      kept.trans generation_eq⟩,
    onBuffers _ _ chainReachable Store.allContent_chain allContent run⟩

end Synchronization

end VersionedTrees
