import VersionedTrees.Proofs.Buffer.Filling

/-!
# Replacing the state of a buffer

A delta is taken over into an empty overlay, with nothing deleted (`Store.takenFrom`). Then two walks look
after the base: the first makes sure that no overlay node lies in the base subtree of a lazy node above
it (`Changes.Unmixed`), the second lists what neither the overlay nor a lazy node has as deleted
(`Changes.conceal`). Valid changes that are unmixed are sound afterwards
(`Changes.Valid.sound_conceal`), whatever the delta was. A replacement that fails, on the way or in the
first walk, leaves what was taken over with nothing deleted (`Buffer.replacedBy_replace`).
-/

namespace VersionedTrees

variable {C : Type}

namespace Changes

variable {base : Store C} {changes : Changes C} {key parent top : Key}

/-- A key of the base lies in the subtree of a lazy node. -/
def Covers (base : Store C) (changes : Changes C) (key : Key) : Prop :=
  ∃ top, changes.IsLazy top ∧ base.layout.Within top key

/-- No overlay node lies in the base subtree of a lazy node above it. -/
def Unmixed (base : Store C) (changes : Changes C) : Prop :=
  ∀ key top, changes.overlay.Holds key → changes.IsLazy top → base.layout.Within top key →
    top = key

/-- Lists what neither the overlay nor a lazy node has as deleted. -/
def conceal (base : Store C) (changes : Changes C) : Changes C :=
  { changes with
    deleted := fun key => base.layout.Holds key ∧ changes.overlay key = none ∧
      ¬ changes.Covers base key }

@[simp] theorem overlay_conceal (changes : Changes C) :
    (changes.conceal base).overlay = changes.overlay := rfl

/-- What is kept and not in the overlay lies strictly below a lazy node. -/
theorem exists_lazy_of_kept (absent : changes.overlay key = none)
    (kept : ¬ (changes.conceal base).deleted key) (holds : base.layout.Holds key) :
    ∃ top, changes.IsLazy top ∧ base.layout.Within top key ∧ top ≠ key := by
  have covers : changes.Covers base key := by
    by_contra uncovered
    exact kept ⟨holds, absent, uncovered⟩
  obtain ⟨top, isLazy, within⟩ := covers
  refine ⟨top, isLazy, within, ?_⟩
  rintro rfl
  exact Layout.not_holds_iff.mpr absent isLazy.holds

/-- A lazy node and all that lies below it are read from the base. -/
theorem Unmixed.readsBack (unmixed : changes.Unmixed base) (isLazy : changes.IsLazy top)
    (within : base.layout.Within top key) : (changes.conceal base).ReadsBack key := by
  by_cases same : top = key
  · subst same
    exact .inl isLazy
  · refine .inr ⟨?_, fun deleted => deleted.2.2 ⟨top, isLazy, within⟩⟩
    rw [overlay_conceal, ← Layout.not_holds_iff]
    exact fun holds => same (unmixed key top holds isLazy within)

/-- Valid changes that are unmixed are sound once what they do not have is concealed. -/
theorem Valid.sound_conceal (valid : changes.Valid base) (isTree : base.layout.IsTree)
    (unmixed : changes.Unmixed base) : (changes.conceal base).Sound base where
  isTree := valid.isTree
  admits := valid.admits
  leaf := valid.leaf
  covered key parent absent kept isChild := by
    obtain ⟨top, isLazy, within, different⟩ := exists_lazy_of_kept absent kept isChild.holds
    exact unmixed.readsBack isLazy
      (((Layout.within_iff_of_isChild isChild isTree).mp within).resolve_left different)
  rootCovered key absent kept isRoot := by
    obtain ⟨top, isLazy, within, different⟩ := exists_lazy_of_kept absent kept isRoot.holds
    exact absurd (isRoot.within_iff.mp within) different
  exclusive key parent holds kept isChild back := by
    -- a lazy node at or above the parent would be the key itself
    have top_eq : ∀ top, changes.IsLazy top → ¬ base.layout.Within top parent := by
      intro top isLazy within
      obtain rfl := unmixed key top holds isLazy (isChild.within within)
      exact isChild.not_within isTree within
    have there := isTree.parent_holds isChild
    rcases back with isLazy | ⟨absent, kept⟩
    · exact top_eq parent isLazy (isTree.within_self there)
    · obtain ⟨top, isLazy, within, -⟩ := exists_lazy_of_kept absent kept there
      exact top_eq top isLazy within

end Changes

/-! ## Looking after the base -/

namespace Buffer

variable {base : Store C} {changes : Changes C} {buffer after : Buffer C} {key top : Key}
  {delta : Tree C}

section Base

variable (records : buffer.Records base changes) (valid : changes.Valid base)
  (wellFormed : base.WellFormed)

include records valid wellFormed

/-- The climb from a base key stops at the first lazy node. -/
theorem result_rejectLazyAncestors {ancestor : Key} {line : List Key}
    (isLine : base.layout.Line ancestor line) {levels : Nat} (enough : line.length ≤ levels) :
    (∀ top ∈ line, ¬ changes.IsLazy top) ∧
        (buffer.rejectLazyAncestors key levels (some ancestor)).result = .ok () ∨
      ¬ (∀ top ∈ line, ¬ changes.IsLazy top) ∧
        ∃ fault, (buffer.rejectLazyAncestors key levels (some ancestor)).result =
          .error (.delta fault) := by
  have lazily : ∀ {ancestor : Key} {levels : Nat}, changes.IsLazy ancestor →
      (buffer.rejectLazyAncestors key (levels + 1) (some ancestor)).result =
        .error (.delta (.insideUnchanged key ancestor)) := by
    intro ancestor levels isLazy
    rw [rejectLazyAncestors, (records.isLazy_iff (valid.admits ancestor)).mpr isLazy]
    rfl
  have onward : ∀ {ancestor : Key} {levels : Nat} {above : Option Key},
      ¬ changes.IsLazy ancestor → (base.tree.parent ancestor).result = .ok above →
      (buffer.rejectLazyAncestors key (levels + 1) (some ancestor)).result =
        (buffer.rejectLazyAncestors key levels above).result := by
    intro ancestor levels above notLazy parent
    rw [rejectLazyAncestors, records.isLazy_eq_false (valid.admits ancestor) notLazy,
      records.backingTree]
    exact Read.result_bind_of_ok parent
  induction isLine generalizing levels with
  | @root ancestor isRoot =>
      obtain ⟨levels, rfl⟩ : ∃ rest, levels = rest + 1 := ⟨levels - 1, by simp at enough; omega⟩
      by_cases isLazy : changes.IsLazy ancestor
      · exact .inr ⟨fun all => all ancestor (List.mem_singleton_self _) isLazy, _, lazily isLazy⟩
      · refine .inl ⟨fun top inside => List.mem_singleton.mp inside ▸ isLazy, ?_⟩
        rw [onward isLazy (wellFormed.shows.result_parent_eq_none_iff.mpr isRoot)]
        cases levels <;> rfl
  | @child ancestor parent line isChild above inductionHypothesis =>
      rw [List.length_cons] at enough
      obtain ⟨levels, rfl⟩ : ∃ rest, levels = rest + 1 := ⟨levels - 1, by omega⟩
      by_cases isLazy : changes.IsLazy ancestor
      · exact .inr ⟨fun all => all ancestor List.mem_cons_self isLazy, _, lazily isLazy⟩
      · rw [onward isLazy (wellFormed.shows.result_parent_eq_some_iff.mpr isChild),
          List.forall_mem_cons, and_iff_right isLazy]
        exact inductionHypothesis (Nat.le_of_succ_le_succ enough)

/-- A key is rejected if it lies strictly below a lazy node. -/
theorem result_rejectKeyInsideLazySubtree (key : Key) :
    (∀ top, changes.IsLazy top → base.layout.Within top key → top = key) ∧
        (buffer.rejectKeyInsideLazySubtree key).result = .ok () ∨
      ¬ (∀ top, changes.IsLazy top → base.layout.Within top key → top = key) ∧
        ∃ fault, (buffer.rejectKeyInsideLazySubtree key).result = .error (.delta fault) := by
  rw [rejectKeyInsideLazySubtree, records.backingTree]
  by_cases holds : base.layout.Holds key
  case neg =>
    have contains : (base.tree.contains key).result = .ok false := by
      rw [wellFormed.shows.contains, Layout.not_holds_iff.mp holds]
      rfl
    exact .inl ⟨fun top _ within => absurd within.holds holds, Read.result_bind_of_ok contains⟩
  case pos =>
    have contains : (base.tree.contains key).result = .ok true := by
      rw [wellFormed.shows.contains, Layout.holds_iff_isSome.mp holds]
    rw [Read.result_bind_of_ok contains, if_pos rfl]
    rcases holds.isRoot_or_isChild with isRoot | ⟨parent, isChild⟩
    · rw [Read.result_bind_of_ok (wellFormed.shows.result_parent_eq_none_iff.mpr isRoot)]
      refine .inl ⟨fun top _ within => isRoot.within_iff.mp within, ?_⟩
      cases base.tree.levels <;> rfl
    · rw [Read.result_bind_of_ok (wellFormed.shows.result_parent_eq_some_iff.mpr isChild)]
      obtain ⟨line, isLine⟩ :=
        wellFormed.isTree.rooted parent (wellFormed.isTree.parent_holds isChild)
      have enough : line.length ≤ base.tree.levels :=
        Nat.le_succ_of_le (wellFormed.shows.depth parent line isLine)
      have lazy_iff : (∀ top, changes.IsLazy top → base.layout.Within top key → top = key) ↔
          ∀ top ∈ line, ¬ changes.IsLazy top := by
        constructor
        · intro only top inside isLazy
          obtain rfl := only top isLazy (isChild.within (isLine.within inside))
          exact isChild.not_within wellFormed.isTree (isLine.within inside)
        · intro none top isLazy within
          by_contra different
          obtain ⟨line', isLine', inside⟩ :=
            ((Layout.within_iff_of_isChild isChild wellFormed.isTree).mp within).resolve_left
              different
          rw [isLine'.unique isLine] at inside
          exact none top inside isLazy
      rw [lazy_iff]
      exact result_rejectLazyAncestors records valid wellFormed isLine enough

/-- Overlay keys are rejected unless the changes are unmixed. -/
theorem result_rejectKeysInsideLazySubtrees :
    changes.Unmixed base ∧ buffer.rejectKeysInsideLazySubtrees.result = .ok ⟨⟩ ∨
      ¬ changes.Unmixed base ∧
        ∃ fault, buffer.rejectKeysInsideLazySubtrees.result = .error (.delta fault) := by
  have unmixed_iff : changes.Unmixed base ↔ ∀ key ∈ buffer.overlay.keys,
      ∀ top, changes.IsLazy top → base.layout.Within top key → top = key := by
    have mem_iff : ∀ key, key ∈ buffer.overlay.keys ↔ changes.overlay.Holds key := by
      intro key
      rw [Store.mem_keys_iff, records.overlay]
    simp only [mem_iff]
    exact ⟨fun unmixed key holds top => unmixed key top holds,
      fun all key top holds => all key holds top⟩
  rw [unmixed_iff]
  exact Read.result_forM_checks fun key _ =>
    result_rejectKeyInsideLazySubtree records valid wellFormed key

end Base

section Hiding

variable (records : buffer.Records base changes)
  (admits : ∀ key standing, changes.overlay key = some standing →
    base.Admits key standing.payload)
  (wellFormed : base.WellFormed)

/-- What the walk that hides goes to next. -/
def uncoveredNext (base : Store C) (buffer : Buffer C) (key : Key) : List Key :=
  if buffer.isLazy key then [] else (base.tree.childList key).reverse

include records admits wellFormed in
theorem mem_uncoveredNext_iff : key ∈ uncoveredNext base buffer top ↔
    ¬ changes.IsLazy top ∧ base.layout.IsChild key top := by
  rw [uncoveredNext]
  by_cases isLazy : changes.IsLazy top
  · rw [(records.isLazy_iff (admits top)).mpr isLazy, if_pos rfl]
    simp [isLazy]
  · rw [records.isLazy_eq_false (admits top) isLazy, if_neg Bool.false_ne_true, List.mem_reverse,
      wellFormed.listed.mem_iff]
    exact (and_iff_right isLazy).symm

include records admits wellFormed in
/-- The walk that hides comes to the base keys that are not strictly below a lazy node. -/
theorem mem_uncovered_iff {root : Key} {levels : Nat} (isRoot : base.layout.IsRoot root)
    (enough : Exhausts (uncoveredNext base buffer) levels root) :
    key ∈ preorder (uncoveredNext base buffer) levels root ↔
      base.layout.Holds key ∧
        ∀ top, changes.IsLazy top → base.layout.Within top key → top = key := by
  constructor
  · clear enough
    have start : base.layout.Holds root ∧
        ∀ top, changes.IsLazy top → base.layout.Within top root → top = root :=
      ⟨isRoot.holds, fun top _ within => isRoot.within_iff.mp within⟩
    clear isRoot
    induction levels generalizing root with
    | zero => exact fun inside => absurd inside List.not_mem_nil
    | succ levels inductionHypothesis =>
        intro inside
        rcases List.mem_cons.mp inside with rfl | lower
        · exact start
        · obtain ⟨child, among, inside⟩ := List.mem_flatMap.mp lower
          obtain ⟨notLazy, isChild⟩ := (mem_uncoveredNext_iff records admits wellFormed).mp among
          refine inductionHypothesis ⟨isChild.holds, fun top isLazy within => ?_⟩ inside
          rcases (Layout.within_iff_of_isChild isChild wellFormed.isTree).mp within with same | above
          · exact same
          · obtain rfl := start.2 top isLazy above
            exact absurd isLazy notLazy
  · rintro ⟨holds, only⟩
    revert only
    refine wellFormed.isTree.induction key holds ?_ ?_
    · intro key isRoot' _
      obtain rfl := wellFormed.isTree.single root key isRoot isRoot'
      exact mem_preorder_self enough
    · intro key parent isChild there inductionHypothesis only
      -- there is no lazy node above the parent, and the parent is not lazy
      have none : ∀ top, changes.IsLazy top → ¬ base.layout.Within top parent := by
        intro top isLazy within
        obtain rfl := only top isLazy (isChild.within within)
        exact isChild.not_within wellFormed.isTree within
      refine mem_preorder_next enough
        (inductionHypothesis fun top isLazy within => absurd within (none top isLazy))
        ((mem_uncoveredNext_iff records admits wellFormed).mpr ⟨fun isLazy => ?_, isChild⟩)
      exact none parent isLazy (wellFormed.isTree.within_self there)

include records wellFormed in
/-- The walk that hides changes neither the overlay nor the base, so where it goes and what it hides
is known beforehand. -/
theorem effect_hideUncoveredNodes {root : Key} (holds : base.layout.Holds root)
    (subset : ∀ key, ∀ below ∈ uncoveredNext base buffer key, base.layout.Holds below)
    (levels : Nat) :
    (depthFirst hideUncoveredNode levels root).effect buffer =
      (((preorder (uncoveredNext base buffer) levels root).filter fun key =>
        !buffer.isLazy key && !buffer.overlay.contains key).forM Buffer.hide).effect buffer := by
  rw [← Edit.forM_when]
  refine (Edit.effect_depthFirst base.layout.Holds (fun state =>
    state.overlay = buffer.overlay ∧ state.backing = buffer.backing) ?_
    (fun key _ => subset key) levels root holds ⟨rfl, rfl⟩).1
  rintro key ⟨backing, overlay, deleted, settings, trap⟩ holds ⟨rfl, rfl⟩
  have isLazy : isLazy ⟨buffer.backing, buffer.overlay, deleted, settings, trap⟩ key =
      buffer.isLazy key := rfl
  have children : ((⟨buffer.backing, buffer.overlay, deleted, settings, trap⟩ :
      Buffer C).backingTree.children key).result = .ok (base.tree.childList key) := by
    refine Eq.trans ?_ (wellFormed.shows.result_children holds)
    rw [← records.backingTree]
    rfl
  rw [hideUncoveredNode, Edit.effect_current_bind, isLazy, uncoveredNext]
  cases buffer.isLazy key with
  | true => exact ⟨_, rfl, rfl, rfl, rfl⟩
  | false =>
      cases contained : buffer.overlay.contains key with
      | true => exact ⟨_, Edit.effect_liftM_bind children, rfl, rfl, rfl⟩
      | false => exact ⟨_, Edit.effect_liftM_bind children, rfl, rfl, rfl⟩

include records admits wellFormed in
/-- What neither the overlay nor a lazy node has is hidden. -/
theorem Records.hideUncovered (kept : ∀ key, ¬ changes.deleted key) :
    ∃ after, Buffer.hideUncovered.effect buffer = (.ok (), after) ∧
      after.Records base (changes.conceal base) := by
  obtain ⟨found, rootKey, -, root_iff⟩ := wellFormed.shows.root
  rw [Buffer.hideUncovered, Edit.effect_current_bind, records.backingTree,
    Edit.effect_liftM_bind rootKey]
  cases found with
  | none =>
      refine ⟨buffer, rfl, records.congr rfl fun key => iff_of_false (kept key) fun deleted => ?_⟩
      obtain ⟨root, isRoot, -⟩ := wellFormed.isTree.exists_root deleted.1
      exact nomatch (root_iff root).mpr isRoot
  | some root =>
      have isRoot := (root_iff root).mp rfl
      have subset : ∀ item, ∀ below ∈ uncoveredNext base buffer item,
          base.layout.IsChild below item := fun item below inside =>
        ((mem_uncoveredNext_iff records admits wellFormed).mp inside).2
      have enough : Exhausts (uncoveredNext base buffer) base.tree.levels root :=
        (wellFormed.shows.exhausts isRoot.holds (Nat.le_succ _)).of_subset
          fun item below inside => (wellFormed.listed.mem_iff item below).mpr
            (subset item below inside)
      obtain ⟨after, hidden, records'⟩ := records.hideAll
        ((preorder (uncoveredNext base buffer) base.tree.levels root).filter fun key =>
          !buffer.isLazy key && !buffer.overlay.contains key)
      refine ⟨after, ?_, records'.congr rfl fun key => ?_⟩
      · rw [← hidden]
        exact effect_hideUncoveredNodes records wellFormed isRoot.holds
          (fun item below inside => (subset item below inside).holds) _
      · change changes.deleted key ∨ _ ↔ base.layout.Holds key ∧ changes.overlay key = none ∧ _
        rw [or_iff_right (kept key)]
        change key ∈ List.filter _ _ ↔ _
        rw [List.mem_filter, mem_uncovered_iff records admits wellFormed isRoot enough, and_assoc,
          Bool.and_eq_true, Bool.not_eq_true', Bool.not_eq_true', records.contains_overlay_eq_false,
          ← Bool.not_eq_true, records.isLazy_iff (admits key)]
        refine and_congr_right fun _ => ?_
        constructor
        · rintro ⟨only, notLazy, absent⟩
          refine ⟨absent, ?_⟩
          rintro ⟨top, isLazy, within⟩
          obtain rfl := only top isLazy within
          exact notLazy isLazy
        · rintro ⟨absent, uncovered⟩
          refine ⟨fun top isLazy within => (uncovered ⟨top, isLazy, within⟩).elim, ?_, absent⟩
          exact fun isLazy => Layout.not_holds_iff.mpr absent isLazy.holds

end Hiding

/-! ## Replacing the state -/

theorem fills_reset (backing : buffer.backing = .store base) :
    (Buffer.reset.effect buffer).2.Fills base fun _ => none :=
  ⟨records_reset backing, Changes.sound_untouched.toValid⟩

/-- What a replacement does once the delta has been taken over. -/
def finishReplacement (id : TreeId) (counts : Nat × Nat) : Edit (Buffer C) Unit := do
  (← Edit.current).rejectKeysInsideLazySubtrees
  hideUncovered
  Edit.report (.bufferReplaced id counts.1 counts.2 (← Edit.current).deleted.size)

/-- Once a delta has been taken over, the replacement succeeds exactly when the changes are unmixed;
then what they do not have is deleted. Otherwise the buffer is left as it is. -/
theorem effect_finishReplacement {layout : Layout C} (fills : buffer.Fills base layout)
    (wellFormed : base.WellFormed) (id : TreeId) (counts : Nat × Nat) :
    (Changes.overlaid layout).Unmixed base ∧
        (∃ after, (finishReplacement id counts).effect buffer = (.ok (), after) ∧
          after.Records base ((Changes.overlaid layout).conceal base)) ∨
      ¬ (Changes.overlaid layout).Unmixed base ∧
        ∃ fault, (finishReplacement id counts).effect buffer = (.error (.delta fault), buffer) := by
  rw [finishReplacement, Edit.effect_current_bind]
  rcases result_rejectKeysInsideLazySubtrees fills.records fills.valid wellFormed with
    ⟨unmixed, passed⟩ | ⟨mixed, fault, rejected⟩
  · obtain ⟨after, hidden, records'⟩ :=
      fills.records.hideUncovered fills.valid.admits wellFormed fun _ => not_false
    refine .inl ⟨unmixed, after, ?_, records'⟩
    exact (Edit.effect_liftM_bind passed).trans ((Edit.effect_bind_of_ok hidden).trans rfl)
  · refine .inr ⟨mixed, fault, Edit.effect_bind_of_error ?_⟩
    rw [Edit.effect_liftM, rejected]

/-- What a replacement does once the changes are dropped. -/
def replaceUnchanged (backing delta : Tree C) : Edit (Buffer C) Unit := do
  match ← delta.rootKey with
  | none =>
    match ← backing.rootKey with
    | none => return ()
    | some root => hideBackingSubtree root
  | some root =>
    let counts ← takeOver delta root
    finishReplacement backing.id counts

theorem effect_replace (backing : buffer.backing = .store base) :
    (replace delta).effect buffer =
      (replaceUnchanged base.tree delta).effect (Buffer.reset.effect buffer).2 := by
  rw [← (records_reset backing).backingTree]
  rfl

/-- A delta with a root is taken over by a buffer without changes. -/
theorem effect_replace_of_root {root : Key} (backing : buffer.backing = .store base)
    (rootKey : delta.rootKey.result = .ok (some root)) :
    (replace delta).effect buffer = (takeOver delta root >>= finishReplacement base.id).effect
      (Buffer.reset.effect buffer).2 := by
  rw [effect_replace backing]
  exact Edit.effect_liftM_bind rootKey

/-- A delta without nodes deletes the whole base. -/
theorem exists_replace_of_empty (backing : buffer.backing = .store base)
    (wellFormed : base.WellFormed) (rootKey : delta.rootKey.result = .ok none) :
    ∃ after, (replace delta).effect buffer = (.ok (), after) ∧
      after.Records base (Changes.untouched.conceal base) := by
  have records := records_reset backing
  obtain ⟨found, baseRoot, -, root_iff⟩ := wellFormed.shows.root
  rw [effect_replace backing, replaceUnchanged, Edit.effect_liftM_bind rootKey,
    Edit.effect_liftM_bind baseRoot]
  have uncovered : ∀ key, ¬ Changes.Covers base (Changes.untouched : Changes C) key :=
    fun key ⟨_, isLazy, _⟩ => Layout.not_holds_iff.mpr rfl isLazy.holds
  cases found with
  | none =>
      refine ⟨_, rfl, records.congr rfl fun key => iff_of_false not_false fun deleted => ?_⟩
      obtain ⟨root, isRoot, -⟩ := wellFormed.isTree.exists_root deleted.1
      exact nomatch (root_iff root).mpr isRoot
  | some root =>
      have isRoot := (root_iff root).mp rfl
      obtain ⟨after, hidden, records'⟩ := records.hideBackingSubtree wellFormed isRoot.holds
      refine ⟨after, hidden, records'.congr rfl fun key => ?_⟩
      change False ∨ _ ↔ base.layout.Holds key ∧ (none : Option (Standing C)) = none ∧ _
      rw [false_or, and_iff_right rfl, and_iff_left (uncovered key)]
      refine ⟨Layout.Within.holds, fun holds => ?_⟩
      obtain ⟨top, isTop, within⟩ := wellFormed.isTree.exists_root holds
      rwa [wellFormed.isTree.single root top isRoot isTop]

/-- A visit that takes a delta over leaves its buffer. -/
theorem effect_takeOver {root : Key} {result : Except TreeError Unit}
    {replacement : Replacement C}
    (visited : (depthFirst (Replacement.step delta) (delta.levels + 1) (root, none)).effect
      { buffer := buffer } = (result, replacement)) :
    (takeOver delta root).effect buffer =
      (result.map fun _ => (replacement.lazyCount, replacement.copied), replacement.buffer) := by
  rw [Edit.effect, Prod.mk.injEq] at visited
  obtain ⟨rfl, rfl⟩ := visited
  rfl

/-- A replacement ends with what was taken over. If it succeeds, the changes are unmixed, and the rest is
concealed. If it fails, nothing is deleted. -/
inductive ReplacedBy (base : Store C) (layout : Layout C) : Except TreeError Unit × Buffer C → Prop where
  | taken {after : Buffer C} (valid : (Changes.overlaid layout).Valid base)
      (unmixed : (Changes.overlaid layout).Unmixed base)
      (records : after.Records base ((Changes.overlaid layout).conceal base)) :
      ReplacedBy base layout (.ok (), after)
  | refused {error : TreeError} {after : Buffer C} (fills : after.Fills base layout) :
      ReplacedBy base layout (.error error, after)

/-- What is taken over from a delta with a root decides how its replacement ends. -/
theorem replacedBy_of_root {root : Key} (backing : buffer.backing = .store base)
    (wellFormed : base.WellFormed) (allContent : base.AllContent)
    (rootKey : delta.rootKey.result = .ok (some root)) :
    ReplacedBy base (base.takenFrom delta) ((replace delta).effect buffer) := by
  have heeded := Replacement.heeds_visit wellFormed allContent (fills_reset backing) delta root
    (delta.levels + 1)
  rw [effect_replace_of_root backing rootKey, Store.takenFrom, Tree.items, rootKey]
  by_cases passes : Layout.Passes (fun _ => none)
    ((preorder delta.itemsBelow (delta.levels + 1) (root, none)).flatMap (base.offered delta))
  · obtain ⟨replacement, visited, fills⟩ := heeded.passes passes
    rw [Edit.effect_bind_of_ok (effect_takeOver visited)]
    rcases effect_finishReplacement fills wellFormed base.id
      (replacement.lazyCount, replacement.copied) with
      ⟨unmixed, after, finished, records⟩ | ⟨-, fault, failed⟩
    · rw [finished]
      exact .taken fills.valid unmixed records
    · rw [failed]
      exact .refused fills
  · obtain ⟨error, replacement, visited, fills, -⟩ := heeded.stops passes
    rw [Edit.effect_bind_of_error (effect_takeOver visited)]
    exact .refused fills

/-- Whatever the delta is, its replacement ends with what can be taken from it. -/
theorem replacedBy_replace (backing : buffer.backing = .store base) (wellFormed : base.WellFormed)
    (allContent : base.AllContent) (delta : Tree C) :
    ReplacedBy base (base.takenFrom delta) ((replace delta).effect buffer) := by
  match rootKey : delta.rootKey.result with
  | .ok (some root) => exact replacedBy_of_root backing wellFormed allContent rootKey
  | .ok none =>
      obtain ⟨after, replaced, records⟩ := exists_replace_of_empty backing wellFormed rootKey
      rw [replaced, Store.takenFrom, Tree.items, rootKey]
      refine .taken (fills_reset backing).valid ?_ records
      exact fun key _ holds => absurd holds (Layout.not_holds_iff.mpr rfl)
  | .error error =>
      have refused : (replace delta).effect buffer =
          (.error error, (Buffer.reset.effect buffer).2) := by
        rw [effect_replace backing, replaceUnchanged]
        exact Edit.effect_liftM_bind_of_error rootKey
      rw [refused, Store.takenFrom, Tree.items, rootKey]
      exact .refused (fills_reset backing)

/-- Whatever the delta is, a replacement that succeeds leaves valid changes that are unmixed, with
what they do not have concealed. -/
theorem concealed_of_replace (backing : buffer.backing = .store base) (wellFormed : base.WellFormed)
    (allContent : base.AllContent) (ok : (replace delta).effect buffer = (.ok (), after)) :
    ∃ changes : Changes C, after.Records base (changes.conceal base) ∧ changes.Valid base ∧
      changes.Unmixed base := by
  have ended := replacedBy_replace backing wellFormed allContent delta
  rw [ok] at ended
  cases ended with
  | taken valid unmixed records => exact ⟨_, records, valid, unmixed⟩

/-- However a replacement fails, what was taken over is left, with nothing deleted. -/
theorem fills_of_failed_replace {error : TreeError} (backing : buffer.backing = .store base)
    (wellFormed : base.WellFormed) (allContent : base.AllContent)
    (failed : (replace delta).effect buffer = (.error error, after)) :
    after.Fills base (base.takenFrom delta) := by
  have ended := replacedBy_replace backing wellFormed allContent delta
  rw [failed] at ended
  cases ended with
  | refused fills => exact fills

/-- Whatever the delta is, a replacement that succeeds leaves sound changes. -/
theorem sound_of_replace (backing : buffer.backing = .store base) (wellFormed : base.WellFormed)
    (allContent : base.AllContent) (ok : (replace delta).effect buffer = (.ok (), after)) :
    ∃ changes, after.Records base changes ∧ changes.Sound base := by
  obtain ⟨changes, records, valid, unmixed⟩ :=
    concealed_of_replace backing wellFormed allContent ok
  exact ⟨_, records, valid.sound_conceal wellFormed.isTree unmixed⟩

end Buffer

end VersionedTrees
