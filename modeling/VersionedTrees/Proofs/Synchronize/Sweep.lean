import VersionedTrees.Proofs.Layout.Reads
import VersionedTrees.Proofs.Store.Edits
import VersionedTrees.Synchronize

/-!
# Sweeping a destination

The last part of a synchronization deletes what the source does not have. The topmost such keys are
collected first (`Synchronization.exists_stale`), and since none of them is below another one they can
be deleted one after the other (`Synchronization.exists_deleteAll`).

What is left is the layout that the destination was to have, as long as all of that layout is in place
beforehand (`Synchronization.Written`). Keys that belong to a reference are neither looked at nor
deleted.
-/

namespace VersionedTrees

variable {C : Type}

namespace Layout

variable {layout target : Layout C} {key top : Key}

/-- A layout has all of a target layout in place, and no other root. -/
structure Extends (layout target : Layout C) : Prop where
  isTree : layout.IsTree
  targetTree : target.IsTree
  agrees : ∀ key, target.Holds key → layout key = target key
  root : ∀ key, layout.IsRoot key → target.Holds key

/-- A key is not in a target layout although its parent is. -/
def Stale (layout target : Layout C) (key : Key) : Prop :=
  ¬ target.Holds key ∧ ∃ parent, target.Holds parent ∧ layout.IsChild key parent

namespace Extends

variable (ext : layout.Extends target)

include ext

theorem isChild_iff {parent : Key} (holds : target.Holds key) :
    layout.IsChild key parent ↔ target.IsChild key parent := by
  rw [Layout.isChild_iff, Layout.isChild_iff, ext.agrees key holds]

theorem isRoot_iff (holds : target.Holds key) : layout.IsRoot key ↔ target.IsRoot key := by
  rw [Layout.isRoot_iff, Layout.isRoot_iff, ext.agrees key holds]

theorem aligned : layout.Aligned target target.Holds where
  sameParent key holds := by rw [ext.agrees key holds]
  closed _ _ _ isChild := ext.targetTree.parent_holds isChild

/-- A key of the target is below the same keys in both layouts. -/
theorem within_iff (holds : target.Holds key) : layout.Within top key ↔ target.Within top key :=
  ext.aligned.within_iff ext.isTree ext.targetTree holds holds

/-- Above a key that is not in the target there is a stale one. -/
theorem exists_stale_above (holds : layout.Holds key) (lacks : ¬ target.Holds key) :
    ∃ top, layout.Stale target top ∧ layout.Within top key := by
  revert lacks
  refine ext.isTree.induction key holds ?_ ?_
  · exact fun key isRoot lacks => absurd (ext.root key isRoot) lacks
  · intro key parent isChild _ inductionHypothesis lacks
    by_cases direct : target.Holds parent
    · exact ⟨key, ⟨lacks, parent, direct, isChild⟩, ext.isTree.within_self isChild.holds⟩
    · obtain ⟨top, stale, within⟩ := inductionHypothesis direct
      exact ⟨top, stale, isChild.within within⟩

/-- Of two stale keys none is below the other. -/
theorem apart (stale : layout.Stale target top) (stale' : layout.Stale target key)
    (within : layout.Within top key) : top = key := by
  obtain ⟨-, parent, held, isChild⟩ := stale'
  refine ((within_iff_of_isChild isChild ext.isTree).mp within).resolve_right fun higher => stale.1 ?_
  exact ((ext.within_iff held).mp higher).top_holds

/-- Without its stale subtrees the layout is the target. -/
theorem pruneAll_eq {stale : List Key} (mem_iff : ∀ key, key ∈ stale ↔ layout.Stale target key) :
    layout.pruneAll stale = target := by
  funext key
  ext standing
  rw [pruneAll_eq_some]
  by_cases held : target.Holds key
  · rw [ext.agrees key held]
    refine and_iff_left fun top inside within => ((mem_iff top).mp inside).1 ?_
    exact ((ext.within_iff held).mp within).top_holds
  · rw [not_holds_iff.mp held]
    refine iff_of_false (fun both => ?_) nofun
    obtain ⟨top, stale, within⟩ := ext.exists_stale_above ⟨_, both.1⟩ held
    exact both.2 top ((mem_iff top).mpr stale) within

end Extends

end Layout

namespace Synchronization

/-! ## Collecting stale keys -/

section Collecting

variable {destination : Tree C} {layout target : Layout C} {seen covered : KeySet} {key : Key}

/-- A destination has all of a target layout in place: the keys that were seen, and below those that are
covered what belongs to a reference. -/
structure Written (layout target : Layout C) (seen covered : KeySet) : Prop
    extends layout.Extends target where
  seen_holds : ∀ key ∈ seen, target.Holds key
  covered_seen : ∀ top ∈ covered, top ∈ seen
  owned : ∀ key, target.Holds key → key ∈ seen ∨ ∃ top ∈ covered, target.Within top key
  alone : ∀ top ∈ covered, ∀ key ∈ seen, target.Within top key → top = key
  closed : ∀ top ∈ covered, ∀ parent, target.Within top parent → ∀ child,
    layout.IsChild child parent → target.Holds child

/-- The keys that the collection of stale keys comes to next. -/
def sweepNext (destination : Tree C) (seen covered : KeySet) (key : Key) : List Key :=
  if !seen.contains key then []
  else if covered.contains key then []
  else (destination.childList key).reverse

theorem mem_sweepNext_iff {child : Key} : child ∈ sweepNext destination seen covered key ↔
    key ∈ seen ∧ key ∉ covered ∧ child ∈ destination.childList key := by
  rw [sweepNext, ← Std.TreeSet.contains_iff_mem, ← Std.TreeSet.contains_iff_mem]
  cases seen.contains key <;> cases covered.contains key <;> simp

/-- Keys are added to a list one after the other. -/
theorem effect_forM_append (keys : List Key) (found : List Key) :
    (keys.forM fun key => Edit.modify (· ++ [key])).effect found = (.ok ⟨⟩, found ++ keys) := by
  induction keys generalizing found with
  | nil => rw [List.append_nil]; rfl
  | cons key keys inductionHypothesis =>
      refine (inductionHypothesis (found ++ [key])).trans ?_
      rw [List.append_assoc]
      rfl

/-- The keys that a sweep comes to are collected if they were not seen. -/
theorem effect_sweep (shows : destination.Shows layout) {root : Key} (holds : layout.Holds root)
    (levels : Nat) : (depthFirst (findStale destination seen covered) levels root).effect [] =
      (.ok ⟨⟩, (preorder (sweepNext destination seen covered) levels root).filter
        (!seen.contains ·)) := by
  have handles : ∀ key (found : List Key), layout.Holds key → True → ∃ after,
      (findStale destination seen covered key).effect found =
        (.ok (sweepNext destination seen covered key), after) ∧
      (Edit.when (!seen.contains key) (Edit.modify (· ++ [key]))).effect found =
        (.ok ⟨⟩, after) ∧ True := by
    intro key found holds _
    rw [findStale, sweepNext]
    cases seen.contains key with
    | false => exact ⟨found ++ [key], rfl, rfl, trivial⟩
    | true =>
        cases covered.contains key with
        | true => exact ⟨found, rfl, rfl, trivial⟩
        | false =>
            exact ⟨found, Edit.effect_liftM_bind (shows.result_children holds), rfl, trivial⟩
  have closed : ∀ key, layout.Holds key → ∀ child ∈ sweepNext destination seen covered key,
      layout.Holds child := fun key _ child inside =>
    ((shows.listed.mem_iff key child).mp (mem_sweepNext_iff.mp inside).2.2).holds
  obtain ⟨same, -⟩ := Edit.effect_depthFirst layout.Holds (fun _ => True) handles closed levels root
    holds trivial
  rw [same, Edit.forM_when, effect_forM_append, List.nil_append]

section Written

variable (written : Written layout target seen covered)

include written

/-- Where a child is stale, all keys above it were seen and none of them is covered. -/
theorem Written.open_above {parent top : Key} (stale : layout.Stale target key)
    (isChild : layout.IsChild key parent) (within : target.Within top parent) :
    top ∈ seen ∧ top ∉ covered := by
  have uncovered : ∀ other ∈ covered, ¬ target.Within other top := fun other inside above =>
    stale.1 (written.closed other inside parent (above.trans within) key isChild)
  refine ⟨(written.owned top within.top_holds).resolve_right ?_, fun inside => ?_⟩
  · rintro ⟨other, inside, above⟩
    exact uncovered other inside above
  · exact uncovered top inside (written.targetTree.within_self within.top_holds)

/-- Below a key that was seen and is not covered, a child that was not seen is stale. -/
theorem Written.stale_of_isChild {parent : Key} (isChild : layout.IsChild key parent)
    (inside : parent ∈ seen) (notCovered : parent ∉ covered) (unseen : key ∉ seen) :
    layout.Stale target key := by
  refine ⟨fun holds => ?_, parent, written.seen_holds parent inside, isChild⟩
  obtain ⟨top, among, within⟩ := (written.owned key holds).resolve_left unseen
  have isChild' := (written.toExtends.isChild_iff holds).mp isChild
  rcases (Layout.within_iff_of_isChild isChild' written.targetTree).mp within with rfl | higher
  · exact unseen (written.covered_seen top among)
  · rw [written.alone top among parent inside higher] at among
    exact notCovered among

theorem Written.root_seen (isRoot : layout.IsRoot key) : key ∈ seen := by
  have holds := written.root key isRoot
  refine (written.owned key holds).elim id ?_
  rintro ⟨top, among, within⟩
  obtain rfl := ((written.toExtends.isRoot_iff holds).mp isRoot).within_iff.mp within
  exact written.covered_seen top among

/-- What a sweep comes to and was not seen are the stale keys. -/
theorem Written.mem_sweep_iff (shows : destination.Shows layout) {root : Key}
    (isRoot : layout.IsRoot root) :
    key ∈ (preorder (sweepNext destination seen covered) destination.levels root).filter
      (!seen.contains ·) ↔ layout.Stale target key := by
  have isTree := shows.isTree
  have mem_iff : ∀ above child, child ∈ sweepNext destination seen covered above ↔
      above ∈ seen ∧ above ∉ covered ∧ layout.IsChild child above := fun above child => by
    rw [mem_sweepNext_iff, shows.listed.mem_iff]
  have enough : Exhausts (sweepNext destination seen covered) destination.levels root :=
    (shows.exhausts isRoot.holds (Nat.le_succ _)).of_subset
      fun _ _ inside => (mem_sweepNext_iff.mp inside).2.2
  rw [List.mem_filter, Bool.not_eq_true', ← Bool.not_eq_true, Std.TreeSet.contains_iff_mem]
  constructor
  · rintro ⟨reached, unseen⟩
    have closed : ∀ above, (above ∈ seen ∨ layout.Stale target above) →
        ∀ child ∈ sweepNext destination seen covered above,
          child ∈ seen ∨ layout.Stale target child := by
      intro above _ child inside
      obtain ⟨inside, notCovered, isChild⟩ := (mem_iff above child).mp inside
      by_cases unseen : child ∈ seen
      · exact .inl unseen
      · exact .inr (written.stale_of_isChild isChild inside notCovered unseen)
    exact (forall_mem_preorder closed _ (.inl (written.root_seen isRoot)) key reached).resolve_left
      unseen
  · intro stale
    refine ⟨?_, fun inside => stale.1 (written.seen_holds key inside)⟩
    obtain ⟨parent, held, isChild⟩ := stale.2
    have opened : ∀ top, target.Within top parent → top ∈ seen ∧ top ∉ covered :=
      fun _ => written.open_above stale isChild
    -- from the root on, the sweep goes through all keys above
    have reached : ∀ top, target.Holds top → target.Within top parent →
        top ∈ preorder (sweepNext destination seen covered) destination.levels root := by
      intro top holds
      refine written.targetTree.induction top holds ?_ ?_
      · intro top isTop _
        have isTop' := (written.toExtends.isRoot_iff isTop.holds).mpr isTop
        rw [isTree.single top root isTop' isRoot]
        exact mem_preorder_self enough
      · intro top above isChild' _ inductionHypothesis within
        have upper := (isChild'.within (written.targetTree.within_self
          (written.targetTree.parent_holds isChild')))
        have higher := upper.trans within
        obtain ⟨inside, notCovered⟩ := opened above higher
        refine mem_preorder_next enough (inductionHypothesis higher) ((mem_iff above top).mpr
          ⟨inside, notCovered, (written.toExtends.isChild_iff isChild'.holds).mpr isChild'⟩)
    have self := written.targetTree.within_self held
    obtain ⟨inside, notCovered⟩ := opened parent self
    exact mem_preorder_next enough (reached parent held self)
      ((mem_iff parent key).mpr ⟨inside, notCovered, isChild⟩)

end Written

/-- The stale keys of a destination are told, each of them once. -/
theorem exists_stale (written : Written layout target seen covered)
    (shows : destination.Shows layout) : ∃ stale,
      (staleKeys destination seen covered).result = .ok stale ∧ stale.Nodup ∧
      ∀ key, key ∈ stale ↔ layout.Stale target key := by
  obtain ⟨found, same, -, isRoot_iff⟩ := shows.root
  rw [staleKeys]
  cases found with
  | none =>
      refine ⟨[], Read.result_bind_of_ok same, List.nodup_nil, fun key => ?_⟩
      refine iff_of_false List.not_mem_nil ?_
      rintro ⟨-, parent, -, isChild⟩
      obtain ⟨root, isRoot, -⟩ := shows.isTree.exists_root isChild.holds
      cases (isRoot_iff root).mpr isRoot
  | some root =>
      have isRoot := (isRoot_iff root).mp rfl
      have below : ∀ key, ∀ child ∈ sweepNext destination seen covered key,
          layout.IsChild child key := fun key child inside =>
        (shows.listed.mem_iff key child).mp (mem_sweepNext_iff.mp inside).2.2
      have nodup : ∀ key, (sweepNext destination seen covered key).Nodup := by
        intro key
        rw [sweepNext]
        split
        · exact List.nodup_nil
        · split
          · exact List.nodup_nil
          · exact List.nodup_reverse.mpr (nodup_of_ordered (shows.listed.ordered key))
      refine ⟨_, (Read.result_bind_of_ok same).trans (Read.result_bind_of_ok
        (Edit.result_toRead_of_ok (effect_sweep shows isRoot.holds destination.levels))),
        (shows.isTree.nodup_preorder nodup below isRoot.holds).filter _,
        fun key => written.mem_sweep_iff shows isRoot⟩

end Collecting

/-! ## Deleting them -/

section Deleting

variable {τ : Type} [Editable τ C] {represents : Nat → τ → Layout C → Prop} {count : Nat}
  {destination : τ} {layout target : Layout C} {progress : Synchronization τ} {stale : List Key}

/-- A relation between states and layouts, after a number of edits, in which reads are answered by the
layout and to delete a key takes its subtree out. -/
structure Deletes (represents : Nat → τ → Layout C → Prop) : Prop where
  shows : ∀ {count destination layout}, represents count destination layout →
    (Editable.tree destination).Shows layout
  delete : ∀ {count destination layout key}, represents count destination layout →
    layout.Holds key → ∃ after, (Editable.delete key : Edit τ Unit).effect destination =
      (.ok (), after) ∧ represents (count + 1) after (layout.prune key)

/-- Deletes a key of the destination. -/
def deleteKey (key : Key) : Edit (Synchronization τ) Unit :=
  edit (Editable.delete key : Edit τ Unit)

/-- The last part of a synchronization. -/
def sweep : Edit (Synchronization τ) Unit := do
  let progress ← Edit.current
  let stale ← staleKeys (Editable.tree progress.destination) progress.seen progress.covered
  stale.forM deleteKey
  let destination ← tree (τ := τ) (C := C)
  Edit.report
    (.appliedTree destination.id progress.written stale.length progress.covered.size)

variable (deletes : Deletes represents)

include deletes

/-- Keys that are not below one another can be deleted one after the other. -/
theorem exists_deleteAll (nodup : stale.Nodup) (held : ∀ key ∈ stale, layout.Holds key)
    (apart : ∀ left ∈ stale, ∀ right ∈ stale, layout.Within left right → left = right)
    (represented : represents count progress.destination layout) : ∃ after,
      (stale.forM deleteKey).effect progress =
        (.ok ⟨⟩, { progress with destination := after }) ∧
      represents (count + stale.length) after (layout.pruneAll stale) := by
  induction stale generalizing count layout progress with
  | nil => exact ⟨progress.destination, rfl, represented⟩
  | cons key stale inductionHypothesis =>
      obtain ⟨notLater, nodup⟩ := List.nodup_cons.mp nodup
      obtain ⟨middle, deleted, represented'⟩ :=
        deletes.delete represented (held key List.mem_cons_self)
      have outside : ∀ other ∈ stale, ¬ layout.Within key other := by
        intro other later within
        obtain rfl := apart key List.mem_cons_self other (List.mem_cons_of_mem _ later) within
        exact notLater later
      let onward : Synchronization τ := { progress with destination := middle }
      have represented' : represents (count + 1) onward.destination (layout.prune key) := represented'
      obtain ⟨after, ok, represented''⟩ := inductionHypothesis nodup
        (fun other later => Layout.prune_holds_iff.mpr
          ⟨held other (List.mem_cons_of_mem _ later), outside other later⟩)
        (fun left later right later' within => apart left (List.mem_cons_of_mem _ later) right
          (List.mem_cons_of_mem _ later') (Layout.within_prune_iff.mp within).1) represented'
      have first : (deleteKey key).effect progress =
          (.ok (), { progress with destination := middle }) := by
        rw [deleteKey, edit, Edit.effect_onPart, deleted]
      refine ⟨after, (Edit.effect_forM_cons_of_ok first).trans ok, ?_⟩
      rwa [List.length_cons, ← Nat.add_assoc, Nat.add_right_comm]

/-- A sweep deletes the stale keys, and what is left is the target. -/
theorem exists_sweep (written : Written layout target progress.seen progress.covered)
    (represented : represents count progress.destination layout) : ∃ (after : τ) (stale : List Key),
      (sweep : Edit (Synchronization τ) Unit).effect progress =
        (.ok (), { progress with destination := after }) ∧
      represents (count + stale.length) after target ∧ stale.Nodup ∧
      ∀ key, key ∈ stale ↔ layout.Stale target key := by
  obtain ⟨stale, collected, nodup, mem_iff⟩ := exists_stale written (deletes.shows represented)
  obtain ⟨after, deleted, represented'⟩ := exists_deleteAll deletes nodup
    (fun key inside => ((mem_iff key).mp inside).2.elim fun _ below => below.2.holds)
    (fun left inside right inside' within => written.toExtends.apart ((mem_iff left).mp inside)
      ((mem_iff right).mp inside') within) represented
  rw [written.toExtends.pruneAll_eq mem_iff] at represented'
  refine ⟨after, stale, ?_, represented', nodup, mem_iff⟩
  rw [sweep, Edit.effect_current_bind]
  refine (Edit.effect_liftM_bind collected).trans ((Edit.effect_bind_of_ok deleted).trans ?_)
  rfl

end Deleting

end Synchronization

end VersionedTrees
