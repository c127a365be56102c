import VersionedTrees.Proofs.Synchronize.Honoured
import VersionedTrees.Proofs.Synchronize.Stranded

/-!
# Synchronizing with what is to be expanded

A buffer that is synchronized with a source reads as the expansion of the source if and only if its
overlay is cleared for the tree-references of the source, or belongs to another root
(`Synchronization.synchronize_honours_iff`). One direction is that of honoured tree-references. For the
other, the first tree-reference that the overlay is not cleared for is visited like those before it, and
strands a node of its base subtree there; neither the rows after it nor the sweep bring that node back.
-/

namespace VersionedTrees

variable {C : Type}

namespace Synchronization

variable {source base expanded : Store C} {first : Layout C} {changes : Changes C}
  {progress : Synchronization (Buffer C)} {rows rest : List (Layout.Row C)} {row : Layout.Row C}

section Stranding

variable {last : Changes C} {stored : Buffer C} (spells : source.Spells base expanded)
  (split : source.rows = rows ++ row :: rest) (refers : source.Refers row.1)
  (underway : Underway source base expanded first (rows.map Prod.fst) last)
  (records : stored.Records base (last.place row.1 row.2))

include spells split underway

/-- After a tree-reference has been stored, what was visited has its parents still where it is in the
overlay. -/
theorem sameParent_of_strip {key : Key} (inside : key ∈ (rows ++ [row]).map Prod.fst)
    (holds : ((last.place row.1 row.2).strip base row.1).overlay.Holds key) :
    (((last.place row.1 row.2).strip base row.1).overlay key).map (·.parent) =
      (source.layout key).map (·.parent) := by
  have found : source.layout row.1 = some row.2 := spells.refers.wellFormed.layout_of_split split
  by_cases same : row.1 = key
  · subst same
    rw [Changes.overlay_strip_of_not_below fun both => both.2 rfl, Changes.overlay_place,
      Layout.place_self, found]
  · have inside : key ∈ rows.map Prod.fst := by
      rw [List.map_append, List.mem_append] at inside
      exact inside.resolve_right fun last => same (List.mem_singleton.mp last).symm
    have outside : ¬ ((last.place row.1 row.2).overlay.Within row.1 key ∧ row.1 ≠ key) := fun both =>
      Layout.holds_iff_ne_none.mp holds (Changes.overlay_strip_of_below both.1 both.2)
    rw [Layout.Holds, Changes.overlay_strip_of_not_below outside, Changes.overlay_place,
      Layout.place_of_ne same] at holds
    obtain ⟨standing, there⟩ := holds
    rw [Changes.overlay_strip_of_not_below outside, Changes.overlay_place, Layout.place_of_ne same,
      ← (underway.aligned spells split).sameParent key inside, Changes.shown_of_overlay there, there]
    rfl

include refers records

/-- A tree-reference that the overlay is not cleared for strands a node of its base subtree. -/
theorem exists_restore_stranding (firstTree : first.IsTree) (blocked : ¬ source.Clears base first row.1)
    (enters : last.Enters base row.1 row.2) : ∃ after lost key,
      (Buffer.restore row.1).effect stored = (.ok (), after) ∧
      after.Stranded source base row.1 lost ∧ lost key := by
  have sourceFormed := spells.refers.wellFormed
  have isTree := records.isTree_overlay
  have found : source.layout row.1 = some row.2 := sourceFormed.layout_of_split split
  obtain ⟨node, within, different, held, remains⟩ : ∃ node, base.layout.Within row.1 node ∧
      row.1 ≠ node ∧ first.Holds node ∧ ∀ other, source.Refers other → ¬ source.Precedes row.1 other →
        ¬ source.Lifts first other node := by
    simpa only [Store.Clears, not_forall, not_exists, not_and, exists_prop] using blocked
  have restoring : (last.place row.1 row.2).Restoring base row.1 := by
    obtain ⟨above, reference, found'⟩ := refers
    have stored : row.2 = _ := Option.some.inj (found.symm.trans found')
    rw [stored] at enters isTree ⊢
    exact enters.restoring underway.sound isTree
  obtain ⟨after, restored, records', restoring', alone⟩ := records.restore spells.wellFormed restoring
  have top_eq : ((last.place row.1 row.2).strip base row.1).overlay row.1 = some row.2 := by
    rw [Changes.overlay_strip_of_not_below fun both => both.2 rfl, Changes.overlay_place,
      Layout.place_self]
  -- the node was not taken out by an earlier tree-reference, and is not by this one
  have stays : last.overlay.Holds node := by
    refine (underway.holds_iff node ⟨row.1, refers, within, different⟩).mpr ⟨held, ?_⟩
    exact fun other inside refers' => remains other refers' fun precedes =>
      sourceFormed.not_mem_of_precedes split precedes inside
  have outside : ¬ last.overlay.Within row.1 node := fun within =>
    remains row.1 refers sourceFormed.not_precedes_self
      (underway.lifts_of_within spells split firstTree refers within held)
  have kept : ((last.place row.1 row.2).strip base row.1).overlay.Holds node := by
    rw [Layout.Holds, Changes.overlay_strip_of_not_below, Changes.overlay_place,
      Layout.place_of_ne different]
    · exact stays
    · rintro ⟨within, -⟩
      exact ((underway.sound.isTree.within_place_self_iff isTree).mp within).elim different outside
  have closed : ∀ key parent, key ∈ (rows ++ [row]).map Prod.fst → source.layout.IsChild key parent →
      parent ∈ (rows ++ [row]).map Prod.fst := fun _ _ =>
    sourceFormed.parent_mem_of_split (by rw [split, List.append_assoc]; rfl)
  refine ⟨after, (· = node), node, restored, ⟨_, records', ?_⟩, rfl⟩
  exact
    { admitted := restoring'.admits
      isLazy := restoring'.isLazy
      alone
      line := Layout.aligned_above restoring'.isTree sourceFormed.isTree closed
        (fun _ => sameParent_of_strip spells split underway)
        (List.mem_map_of_mem (List.mem_append_right _ (List.mem_singleton_self row)))
        ⟨_, top_eq⟩ refers.holds
      below := by
        rintro _ rfl
        exact ⟨within, different⟩
      gone := by
        rintro _ rfl
        exact .inl kept }

end Stranding

/-- The visit of a tree-reference that the overlay is not cleared for strands a node. -/
theorem exists_visit_stranding [DecidableEq C] (spells : source.Spells base expanded)
    (firstTree : first.IsTree) (records : progress.destination.Records base changes)
    (underway : Underway source base expanded first (rows.map Prod.fst) changes)
    (roots : ∀ key, (changes.shown base).IsRoot key → source.layout.IsRoot key)
    (split : source.rows = rows ++ row :: rest) (refers : source.Refers row.1)
    (blocked : ¬ source.Clears base first row.1) : ∃ last lost key,
      (visit source.tree row.1 : Edit (Synchronization (Buffer C)) Unit).effect progress =
        (.ok (), last) ∧
      last.seen = progress.seen.insert row.1 ∧ row.1 ∈ last.covered ∧
      last.destination.Stranded source base row.1 lost ∧ lost key := by
  have found : source.layout row.1 = some row.2 := spells.refers.wellFormed.layout_of_split split
  have isTreeReference := (Store.refers_iff found).mp refers
  obtain ⟨next, stored, inserted, underway', enters, -, records'⟩ :=
    exists_stored_row spells records underway roots split
  obtain ⟨after, lost, node, restored, stranded, inside⟩ :=
    exists_restore_stranding spells split refers underway' records' firstTree blocked enters
  have differs : ∀ {payload : Payload C}, payload.isReference = false → payload ≠ row.2.payload := by
    rintro payload notReference rfl
    rw [Payload.isTreeReference_eq_false notReference] at isTreeReference
    cases isTreeReference
  have changed : changes.shown base row.1 ≠ some row.2 := fun same =>
    differs (underway.sound.not_isReference_shown spells.allContent same) rfl
  obtain ⟨settled, records'', strands⟩ := stranded
  obtain ⟨above, reference, there⟩ := strands.isLazy
  have read := Buffer.result_node spells.allContent strands.admitted records'' row.1
  rw [Changes.shown_of_overlay there, Option.map_some] at read
  have lent := spells.allContent.not_isReference_lend (strands.admitted row.1 _ there).resolves
  rw [isTreeReference] at inserted
  refine ⟨_, lost, node, effect_visit_of_written spells.refers.wellFormed.shows
    (records.shows spells.allContent spells.wellFormed underway.sound) found changed
    (inserted.trans (Edit.effect_bind_of_ok restored)) read, rfl, ?_, ⟨settled, records'', strands⟩,
    inside⟩
  change row.1 ∈ if _ then _ else _
  rw [isTreeReference, Option.any_some, decide_eq_true (differs lent), Bool.and_self, if_pos rfl,
    Store.mem_insert_iff]
  exact .inl rfl

/-- Of the tree-references that an overlay is not cleared for, one comes first. -/
theorem exists_first_blocked {overlay : Layout C} {top : Key} (wellFormed : source.WellFormed)
    (refers : source.Refers top) (blocked : ¬ source.Clears base overlay top) :
    ∃ rows row rest, source.rows = rows ++ row :: rest ∧ source.Refers row.1 ∧
      ¬ source.Clears base overlay row.1 ∧
      ∀ other ∈ rows, source.Refers other.1 → source.Clears base overlay other.1 := by
  classical
  obtain ⟨standing, found⟩ := refers.holds
  have inside : (top, standing) ∈ source.rows := wellFormed.mem_rows_iff.mpr found
  let blocks (row : Layout.Row C) : Bool :=
    decide (source.Refers row.1 ∧ ¬ source.Clears base overlay row.1)
  have there : (source.rows.find? blocks).isSome = true :=
    List.find?_isSome.mpr ⟨_, inside, decide_eq_true ⟨refers, blocked⟩⟩
  obtain ⟨row, same⟩ := Option.isSome_iff_exists.mp there
  obtain ⟨blocks_row, rows, rest, split, before⟩ := List.find?_eq_some_iff_append.mp same
  obtain ⟨refers, blocked⟩ := of_decide_eq_true blocks_row
  refine ⟨rows, row, rest, split, refers, blocked, fun other inside refers => ?_⟩
  by_contra blocked
  have free : blocks other = false := by simpa using before other inside
  exact Bool.false_ne_true (free.symm.trans (decide_eq_true ⟨refers, blocked⟩))

/-- A buffer that is synchronized with a source does not read as the expansion of the source if its
overlay was not cleared for a tree-reference. -/
theorem not_sameReads_of_blocked [DecidableEq C] {buffer after : Buffer C}
    (spells : source.Spells base expanded) (records : buffer.Records base changes)
    (sound : changes.Sound base) (intact : changes.Intact base)
    (agree : ∀ key, (changes.shown base).IsRoot key → source.layout.IsRoot key) {top : Key}
    (refers : source.Refers top) (blocked : ¬ source.Clears base changes.overlay top)
    (ok : (synchronize source.tree).effect buffer = (.ok (), after)) :
    ¬ after.tree.SameReads expanded.tree := by
  have sourceFormed := spells.refers.wellFormed
  obtain ⟨rows, row, rest, split, refers, blocked, clears⟩ :=
    exists_first_blocked sourceFormed refers blocked
  obtain ⟨opened, next, dropped, records', sound', intact', roots, kept⟩ :=
    exists_opened spells records sound intact
  obtain rfl : next = changes := kept.elim And.right fun other => absurd agree other.1
  let ready : Synchronization (Buffer C) := { destination := opened }
  have records' : ready.destination.Records base next := records'
  obtain ⟨before, settled, visited, records'', underway, roots', seen_iff, -⟩ :=
    exists_visitRows_underway spells sound.isTree records' (underway_start sound intact) roots
      (show source.rows = [] ++ (rows ++ row :: rest) from split) clears
  obtain ⟨middle, lost, node, stored, seen, covers, stranded, inside⟩ :=
    exists_visit_stranding spells sound.isTree records'' underway roots' split refers blocked
  -- the rest of the rows, and the sweep
  rcases ran : (run source.tree : Edit (Synchronization (Buffer C)) Unit).effect { destination := buffer }
    with ⟨result, finished⟩
  rw [effect_synchronize, ran] at ok
  cases ok
  rw [run_eq, sourceFormed.visit_eq, Edit.effect_bind_of_ok dropped] at ran
  obtain ⟨⟨⟩, last, written, swept⟩ := Edit.effect_bind_eq_ok ran
  rw [split, List.map_append, List.map_cons, Edit.effect_forM_append_of_ok visited,
    Edit.effect_forM_cons_of_ok stored] at written
  have later : ∀ key ∈ rest.map Prod.fst,
      source.layout.Holds key ∧ ¬ source.layout.Within key row.1 := by
    intro key inside
    refine ⟨?_, sourceFormed.not_within_of_precedes split (Store.precedes_of_split split inside)⟩
    rw [← sourceFormed.mem_map_rows_iff, split, List.map_append, List.map_cons]
    exact List.mem_append_right _ (List.mem_cons_of_mem _ inside)
  obtain ⟨stranded, seen_iff', covered⟩ := stranded_of_visits spells refers later stranded written
  have stands : ∀ key, key ∈ last.seen ↔ source.layout.Holds key := by
    intro key
    rw [seen_iff', seen, Store.mem_insert_iff, seen_iff, ← sourceFormed.mem_map_rows_iff, split,
      List.map_append, List.map_cons, List.mem_append, List.mem_cons, or_iff_right Std.TreeSet.not_mem_emptyc,
      eq_comm, or_assoc, or_left_comm]
  obtain ⟨lost, stranded, inside⟩ := stranded_of_sweep spells refers stands (covered row.1 covers) stranded
    swept inside
  exact stranded.not_sameReads spells refers inside

/-- What expands against a base, with each tree-reference under the key of its target, spells it out. -/
theorem spells_of_expand (fromEdits : source.Reachable) (reachable : base.Reachable)
    (allContent : base.AllContent)
    (pointsInto : ∀ key payload reference, source.payload? key = some payload →
      payload.reference? = some reference → reference.PointsInto base.tree)
    (childless : source.LeafReferences)
    (selfKeyed : ∀ key reference, source.payload? key = some (.treeReference reference) →
      reference.key = key)
    (expands : ((Donors.mk [base.tree]).expand source.tree).result = .ok expanded) :
    source.Spells base expanded where
  toStitches := Merged.stitches_of_expand fromEdits reachable allContent pointsInto childless expands
  selfKeyed key _ reference found := selfKeyed key reference (Store.payload?_of_layout found)

/-- A buffer reads as the expansion of a source once it was synchronized with it, if and only if the overlay
is cleared for all tree-references of the source, or belongs to another root. -/
theorem synchronize_honours_iff [DecidableEq C] {buffer : Buffer C} (reachable : base.Reachable)
    (allContent : base.AllContent) (run : CleanRun base buffer) (intact : buffer.changes.Intact base)
    (fromEdits : source.Reachable)
    (pointsInto : ∀ key payload reference, source.payload? key = some payload →
      payload.reference? = some reference → reference.PointsInto base.tree)
    (childless : source.LeafReferences)
    (selfKeyed : ∀ key reference, source.payload? key = some (.treeReference reference) →
      reference.key = key)
    (expands : ((Donors.mk [base.tree]).expand source.tree).result = .ok expanded) :
    (∃ after : Buffer C, (synchronize source.tree).effect buffer = (.ok (), after) ∧
        after.tree.SameReads expanded.tree) ↔
      (buffer.tree.rootKey.result = source.tree.rootKey.result →
        ∀ top, source.Refers top → source.Clears base buffer.changes.overlay top) := by
  have spells := spells_of_expand fromEdits reachable allContent pointsInto childless selfKeyed expands
  have sourceFormed := spells.refers.wellFormed
  obtain ⟨changes, records, sound⟩ := Buffer.isSound_of_cleanRun reachable.wellFormed allContent run
  rw [records.changes_eq] at intact ⊢
  have shows := records.shows allContent reachable.wellFormed sound
  obtain ⟨root, told, -, root_iff⟩ := shows.root
  have sourceTold : source.tree.rootKey.result = .ok source.root := rfl
  constructor
  · rintro ⟨after, synchronized, sameReads⟩ sameRoot top refers
    rw [told, sourceTold, Except.ok.injEq] at sameRoot
    subst sameRoot
    have agree : ∀ key, (changes.shown base).IsRoot key → source.layout.IsRoot key := fun key isRoot =>
      (sourceFormed.root key).mp ((root_iff key).mpr isRoot)
    by_contra blocked
    exact not_sameReads_of_blocked spells records sound intact agree refers blocked synchronized sameReads
  · intro clears
    obtain ⟨after, synchronized, shows'⟩ := exists_synchronize_cleared spells spells.builds.wellFormed
      records sound intact fun agree top refers key within different holds => by
        refine clears ?_ top refers key within different holds
        obtain ⟨key, isRoot, -⟩ := shows.isTree.exists_root (Changes.holds_shown_of_overlay holds)
        rw [told, sourceTold, (root_iff key).mpr isRoot, (sourceFormed.root key).mpr (agree key isRoot)]
    exact ⟨after, synchronized, shows'.sameReads spells.builds.wellFormed.shows⟩

/-- A root, a tree-reference to the middle of a chain, and a node of its own. -/
def borrower : Store String :=
  Store.ofEdits ⟨2⟩
    [.insert none (.exactly (.number 1)) (.content "root"),
      .insert (some (.number 1)) (.exactly (.number 2)) (.treeReference ⟨⟨1⟩, .number 2⟩),
      .insert (some (.number 1)) (.exactly (.number 5)) (.content "own")]

theorem borrower_refers_iff {key : Key} : borrower.Refers key ↔ key = .number 2 := by
  constructor
  · rintro ⟨parent, reference, found⟩
    have holds : key ∈ borrower.keys := Store.mem_keys_iff.mpr ⟨_, found⟩
    have payload := Store.payload?_of_layout found
    have all : ∀ other ∈ borrower.keys, (borrower.payload? other).any (·.isTreeReference) = true →
        other = .number 2 := by decide +kernel
    exact all key holds (by rw [payload]; rfl)
  · rintro rfl
    exact ⟨some (.number 1), ⟨⟨1⟩, .number 2⟩, by decide +kernel⟩

theorem borrower_selfKeyed {key : Key} {reference : Reference}
    (found : borrower.payload? key = some (.treeReference reference)) : reference.key = key := by
  have refers : borrower.Refers key := by
    obtain ⟨⟨parent, payload⟩, there, rfl⟩ :=
      Option.map_eq_some_iff.mp ((Store.payload?_eq borrower key).symm.trans found)
    exact ⟨parent, reference, there⟩
  obtain rfl := borrower_refers_iff.mp refers
  have stored : borrower.payload? (.number 2) = some (.treeReference ⟨⟨1⟩, .number 2⟩) := by
    decide +kernel
  rw [found, Option.some.injEq, Payload.treeReference.injEq] at stored
  rw [stored]

/-- The leaf of the chain was edited in its place, and is as in the chain again. -/
theorem synchronize_honours_iff_borrower :
    let edit : BufferEdit String := .update (.number 3) (.content "edited")
    let buffer := (edit.edit.effect (Buffer.unchanged (.store Store.chain))).2
    ∃ expanded after, CleanRun Store.chain buffer ∧ buffer.changes.Intact Store.chain ∧
      ((Donors.mk [Store.chain.tree]).expand borrower.tree).result = .ok expanded ∧
      (synchronize borrower.tree).effect buffer = (.ok (), after) ∧
      after.tree.SameReads expanded.tree ∧
      after.tree.keys.result = .ok [.number 1, .number 2, .number 3, .number 5] ∧
      (after.tree.node (.number 3)).result = .ok (some ⟨.number 3, .content "leaf"⟩) := by
  intro edit buffer
  have reachable : Store.chain.Reachable := Store.reachable_ofEdits _ _
  have ok : edit.edit.effect (Buffer.unchanged (.store Store.chain)) = (.ok none, buffer) :=
    Edit.effect_eq_of_result (by decide +kernel)
  have run : CleanRun Store.chain buffer :=
    .step (.fresh {} none) edit ok fun _ _ automatic => nomatch automatic
  have plain : PlainRun Store.chain buffer := .step (.fresh {} none) edit ok rfl
  obtain ⟨changes, records, whole⟩ :=
    Buffer.isWhole_of_plainRun reachable.wellFormed Store.allContent_chain plain
  have intact : buffer.changes.Intact Store.chain := by
    rw [records.changes_eq]
    exact whole.intact
  have fromEdits : borrower.Reachable := Store.reachable_ofEdits _ _
  have verified : (Delta.verify ⟨Store.chain.id, borrower⟩ Store.chain.tree).result = .ok () := by
    decide +kernel
  have childless : borrower.LeafReferences := Store.leafReferences_of_entries (by decide +kernel)
  have clears : ∀ top, borrower.Refers top → borrower.Clears Store.chain buffer.changes.overlay top := by
    intro top refers key within different holds
    obtain rfl := borrower_refers_iff.mp refers
    have below := (reachable.wellFormed.shows.mem_keysFrom_iff within.top_holds
      (show (Store.chain.tree.keysFrom (.number 2)).result = .ok [.number 2, .number 3] by
        decide +kernel) key).mpr within
    obtain rfl : key = .number 3 := by simpa [different.symm] using below
    have there : buffer.overlay.layout.Holds (.number 2) :=
      Store.contains_iff_holds.mp (by decide +kernel)
    have within_iff := records.wellFormed.shows.mem_keysFrom_iff there
      (show (buffer.overlay.tree.keysFrom (.number 2)).result = .ok [.number 2, .number 3] by
        decide +kernel)
    refine ⟨.number 2, refers, fromEdits.wellFormed.not_precedes_self,
      (within_iff _).mp (by decide), fun other stands upper _ => .inl ?_⟩
    have inside := (within_iff other).mpr upper
    have apart : other ≠ .number 3 := by
      rintro rfl
      exact absurd (Store.contains_iff_holds.mpr stands) (by decide +kernel)
    simpa [apart, eq_comm] using inside
  have told : (do
      let expanded ← (Donors.mk [Store.chain.tree]).expand borrower.tree
      return (← expanded.tree.keys, ← expanded.tree.node (.number 3))).result =
        .ok ([.number 1, .number 2, .number 3, .number 5], some ⟨.number 3, .content "leaf"⟩) := by
    decide +kernel
  obtain ⟨expanded, expands, told⟩ := Read.result_bind_eq_ok told
  obtain ⟨keys, toldKeys, told⟩ := Read.result_bind_eq_ok told
  obtain ⟨node, toldNode, told⟩ := Read.result_bind_eq_ok told
  cases told
  obtain ⟨after, synchronized, sameReads⟩ := (synchronize_honours_iff reachable Store.allContent_chain run
    intact fromEdits (Merged.pointsInto_of_verify verified) childless (fun _ _ => borrower_selfKeyed)
    expands).mpr fun _ => clears
  exact ⟨expanded, after, run, intact, expands, synchronized, sameReads,
    sameReads.keys.trans toldKeys, (sameReads.node _).trans toldNode⟩

/-- The leaf of the chain was moved below the root. The tree-reference is stored while it is still there,
and it is swept away after that, so it does not come back below the tree-reference. -/
theorem not_honoured_of_movedLeaf :
    let edit : BufferEdit String :=
      .insert (some (.number 1)) (.exactly (.number 3)) (.content "moved")
    let buffer := (edit.edit.effect (Buffer.unchanged (.store Store.chain))).2
    let after := ((synchronize borrower.tree).effect buffer).2
    Store.chain.Reachable ∧ Store.chain.AllContent ∧ CleanRun Store.chain buffer ∧
      borrower.Reachable ∧ borrower.LeafReferences ∧
      (∀ key reference, borrower.payload? key = some (.treeReference reference) →
        reference.key = key) ∧
      (Delta.verify ⟨Store.chain.id, borrower⟩ Store.chain.tree).result = .ok () ∧
      ((synchronize borrower.tree).effect buffer).1 = .ok () ∧
      after.tree.keys.result = .ok [.number 1, .number 2, .number 5] ∧ ∃ expanded,
        ((Donors.mk [Store.chain.tree]).expand borrower.tree).result = .ok expanded ∧
        expanded.tree.keys.result = .ok [.number 1, .number 2, .number 3, .number 5] ∧
        ¬ after.tree.SameReads expanded.tree := by
  intro edit buffer after
  have ok : edit.edit.effect (Buffer.unchanged (.store Store.chain)) =
      (.ok (some (.number 3)), buffer) := Edit.effect_eq_of_result (by decide +kernel)
  have run : CleanRun Store.chain buffer :=
    .step (.fresh {} none) edit ok fun _ _ automatic => nomatch automatic
  have left : after.tree.keys.result = .ok [.number 1, .number 2, .number 5] := by decide +kernel
  have told : (do
      let expanded ← (Donors.mk [Store.chain.tree]).expand borrower.tree
      expanded.tree.keys).result = .ok [.number 1, .number 2, .number 3, .number 5] := by
    decide +kernel
  obtain ⟨expanded, expands, told⟩ := Read.result_bind_eq_ok told
  refine ⟨Store.reachable_ofEdits _ _, Store.allContent_chain, run, Store.reachable_ofEdits _ _,
    Store.leafReferences_of_entries (by decide +kernel), fun _ _ => borrower_selfKeyed, by decide +kernel,
    by decide +kernel, left, expanded, expands, told, fun sameReads => ?_⟩
  have same := sameReads.keys
  rw [left, told] at same
  cases same

end Synchronization

end VersionedTrees
