import Mathlib.Data.List.Forall2
import VersionedTrees.Proofs.Effect
import VersionedTrees.Tree.Walk

/-!
# Walks as lists

What a depth-first visit handles is a list, if what comes next depends on the item alone. `preorder`
is that list, to a number of levels, and `Exhausts` says that the levels suffice; more of them add
nothing then (`preorder_eq_of_exhausts`). Visits and the keys that a tree tells are brought back to
it by `depthFirst_eq_forM` and `Tree.result_keysWithin`.
-/

namespace VersionedTrees

variable {α β : Type} {next : α → List α} {levels more : Nat} {item : α}

/-- An item and all that follows from it, in the order of a depth-first visit. -/
def preorder (next : α → List α) : Nat → α → List α
  | 0, _ => []
  | levels + 1, item => item :: (next item).flatMap (preorder next levels)

/-- A visit that goes so many levels deep comes to everything that follows from an item. -/
def Exhausts (next : α → List α) : Nat → α → Prop
  | 0, _ => False
  | levels + 1, item => ∀ below ∈ next item, Exhausts next levels below

theorem Exhausts.mono (enough : Exhausts next levels item) (le : levels ≤ more) :
    Exhausts next more item := by
  induction levels generalizing more item with
  | zero => exact enough.elim
  | succ levels inductionHypothesis =>
      obtain ⟨more, rfl⟩ : ∃ rest, more = rest + 1 := ⟨more - 1, by omega⟩
      intro below inside
      exact inductionHypothesis (enough below inside) (Nat.le_of_succ_le_succ le)

/-- More levels than suffice add nothing. -/
theorem preorder_eq_of_exhausts (enough : Exhausts next levels item) (le : levels ≤ more) :
    preorder next more item = preorder next levels item := by
  induction levels generalizing more item with
  | zero => exact enough.elim
  | succ levels inductionHypothesis =>
      obtain ⟨more, rfl⟩ : ∃ rest, more = rest + 1 := ⟨more - 1, by omega⟩
      rw [preorder, preorder, List.flatMap_congr fun below inside =>
        inductionHypothesis (enough below inside) (Nat.le_of_succ_le_succ le)]

/-- Two numbers of levels that both suffice lead to the same items. -/
theorem preorder_eq_preorder (enough : Exhausts next levels item)
    (enough' : Exhausts next more item) : preorder next levels item = preorder next more item := by
  rw [← preorder_eq_of_exhausts enough (Nat.le_max_left levels more),
    preorder_eq_of_exhausts enough' (Nat.le_max_right levels more)]

/-- If what follows from an item follows from it under other names, the levels suffice that suffice
there. -/
theorem Exhausts.of_rename (rename : α → β) {next' : β → List β}
    (renamed : ∀ item, ∀ below ∈ next item, rename below ∈ next' (rename item))
    (enough : Exhausts next' levels (rename item)) : Exhausts next levels item := by
  induction levels generalizing item with
  | zero => exact enough.elim
  | succ levels inductionHypothesis =>
      exact fun below inside => inductionHypothesis (enough _ (renamed item below inside))

/-- If less follows from every item, the levels still suffice. -/
theorem Exhausts.of_subset {fewer : α → List α} (enough : Exhausts next levels item)
    (subset : ∀ item, ∀ below ∈ fewer item, below ∈ next item) : Exhausts fewer levels item :=
  of_rename id subset enough

theorem mem_preorder_self (enough : Exhausts next levels item) :
    item ∈ preorder next levels item := by
  cases levels with
  | zero => exact enough.elim
  | succ levels => exact List.mem_cons_self

/-- What follows from an item of the list is in the list. -/
theorem mem_preorder_next {middle below : α} (enough : Exhausts next levels item)
    (inside : middle ∈ preorder next levels item) (follows : below ∈ next middle) :
    below ∈ preorder next levels item := by
  induction levels generalizing item with
  | zero => exact enough.elim
  | succ levels inductionHypothesis =>
      rcases List.mem_cons.mp inside with rfl | lower
      · exact List.mem_cons_of_mem _
          (List.mem_flatMap.mpr ⟨below, follows, mem_preorder_self (enough below follows)⟩)
      · obtain ⟨first, among, inside⟩ := List.mem_flatMap.mp lower
        exact List.mem_cons_of_mem _
          (List.mem_flatMap.mpr ⟨first, among, inductionHypothesis (enough first among) inside⟩)

/-- What holds of an item and goes on to what follows from it holds of the whole list. -/
theorem forall_mem_preorder {reached : α → Prop}
    (closed : ∀ item, reached item → ∀ below ∈ next item, reached below) (levels : Nat)
    (start : reached item) : ∀ middle ∈ preorder next levels item, reached middle := by
  induction levels generalizing item with
  | zero => exact fun _ inside => absurd inside List.not_mem_nil
  | succ levels inductionHypothesis =>
      intro middle inside
      rcases List.mem_cons.mp inside with rfl | lower
      · exact start
      · obtain ⟨below, among, inside⟩ := List.mem_flatMap.mp lower
        exact inductionHypothesis (closed item start below among) middle inside

/-- Where the same follows from all items that a visit comes to, the visit is the same. -/
theorem preorder_congr {next' : α → List α} {reached : α → Prop}
    (same : ∀ item, reached item → next item = next' item)
    (closed : ∀ item, reached item → ∀ below ∈ next item, reached below) (levels : Nat)
    (start : reached item) : preorder next levels item = preorder next' levels item := by
  induction levels generalizing item with
  | zero => rfl
  | succ levels inductionHypothesis =>
      rw [preorder, preorder, ← same item start, List.flatMap_congr fun below inside =>
        inductionHypothesis (closed item start below inside)]

/-- Every item of a list comes after the items that follow from it, some of which may have come
before the list. -/
def BelowFirst (next : α → List α) (before : α → Prop) : List α → Prop
  | [] => True
  | item :: items =>
    (∀ below ∈ next item, before below) ∧
      BelowFirst next (fun other => other = item ∨ before other) items

theorem belowFirst_append {before : α → Prop} {first second : List α}
    (lower : BelowFirst next before first)
    (upper : BelowFirst next (fun other => other ∈ first ∨ before other) second) :
    BelowFirst next before (first ++ second) := by
  induction first generalizing before with
  | nil => simpa using upper
  | cons item items inductionHypothesis =>
      refine ⟨lower.1, inductionHypothesis lower.2 ?_⟩
      simpa only [List.mem_cons, or_assoc, or_left_comm] using upper

/-- In reverse pre-order what follows from an item comes before it. -/
theorem belowFirst_reverse_preorder (enough : Exhausts next levels item) (before : α → Prop) :
    BelowFirst next before (preorder next levels item).reverse := by
  induction levels generalizing item before with
  | zero => exact enough.elim
  | succ levels inductionHypothesis =>
      have lists : ∀ (items : List α) (before : α → Prop),
          (∀ below ∈ items, Exhausts next levels below) →
          BelowFirst next before (items.flatMap fun below => (preorder next levels below).reverse) := by
        intro items
        induction items with
        | nil => exact fun _ _ => trivial
        | cons below items inductionHypothesis' =>
            intro before enough
            rw [List.flatMap_cons]
            apply belowFirst_append
            · exact inductionHypothesis (enough below List.mem_cons_self) before
            · exact inductionHypothesis' _ fun other inside =>
                enough other (List.mem_cons_of_mem _ inside)
      rw [preorder, List.reverse_cons, List.reverse_flatMap]
      apply belowFirst_append
      · exact lists _ before fun below inside => enough below (List.mem_reverse.mp inside)
      · refine ⟨fun below inside => .inl ?_, trivial⟩
        exact List.mem_flatMap.mpr ⟨below, List.mem_reverse.mpr inside,
          List.mem_reverse.mpr (mem_preorder_self (enough below inside))⟩

/-- Renaming the items renames the list. -/
theorem map_preorder (rename : α → β) {next' : β → List β}
    (renamed : ∀ item, next' (rename item) = (next item).map rename) (levels : Nat) (item : α) :
    (preorder next levels item).map rename = preorder next' levels (rename item) := by
  induction levels generalizing item with
  | zero => rfl
  | succ levels inductionHypothesis =>
      rw [preorder, preorder, renamed, List.map_cons, List.map_flatMap, List.flatMap_map]
      rw [List.flatMap_congr fun below _ => inductionHypothesis below]

/-- If nothing that follows from an item without a name has a name, no item below it has one. -/
theorem filterMap_preorder_eq_nil {rename : α → Option β}
    (cut : ∀ item, rename item = none → ∀ below ∈ next item, rename below = none) (levels : Nat)
    (nameless : rename item = none) : (preorder next levels item).filterMap rename = [] :=
  List.filterMap_eq_nil_iff.mpr (forall_mem_preorder cut levels nameless)

/-- A visit that is cut at the items without a name, and renames the others, comes to the items that
have a name, in the same order. -/
theorem preorder_eq_filterMap {rename : α → Option β} {next' : β → List β}
    (renamed : ∀ item name, rename item = some name → next' name = (next item).filterMap rename)
    (cut : ∀ item, rename item = none → ∀ below ∈ next item, rename below = none)
    (levels : Nat) {item : α} {name : β} (named : rename item = some name) :
    preorder next' levels name = (preorder next levels item).filterMap rename := by
  induction levels generalizing item name with
  | zero => rfl
  | succ levels inductionHypothesis =>
      have lists : ∀ items : List α, (items.filterMap rename).flatMap (preorder next' levels) =
          items.flatMap fun below => (preorder next levels below).filterMap rename := by
        intro items
        induction items with
        | nil => rfl
        | cons below items inductionHypothesis' =>
            rw [List.flatMap_cons, ← inductionHypothesis']
            cases named : rename below with
            | none =>
                rw [List.filterMap_cons_none named, filterMap_preorder_eq_nil cut levels named]
                rfl
            | some name =>
                rw [List.filterMap_cons_some named, List.flatMap_cons, inductionHypothesis named]
      rw [preorder, preorder, renamed item name named, lists, List.filterMap_cons_some named,
        List.filterMap_flatMap]

/-! ## Visits -/

section Visits

variable {m : Type → Type} [Monad m] [LawfulMonad m]

/-- To visit lists one after the other is to visit them joined. -/
theorem forM_flatMap_list (items : List α) (below : α → List β) (visit : β → m PUnit) :
    (items.flatMap below).forM visit = items.forM fun item => (below item).forM visit := by
  induction items with
  | nil => rfl
  | cons item items inductionHypothesis =>
      rw [List.flatMap_cons]
      exact List.forM_append.trans
        (congrArg (fun rest => (below item).forM visit >>= fun _ => rest) inductionHypothesis)

omit [LawfulMonad m] in
theorem forM_congr_list {items : List α} {first second : α → m PUnit}
    (same : ∀ item ∈ items, first item = second item) : items.forM first = items.forM second := by
  induction items with
  | nil => rfl
  | cons item items inductionHypothesis =>
      change (first item >>= fun _ => items.forM first) =
        (second item >>= fun _ => items.forM second)
      rw [same item List.mem_cons_self,
        inductionHypothesis fun other inside => same other (List.mem_cons_of_mem _ inside)]

/-- A depth-first visit takes the items in pre-order, if the handling of the items that it comes to
names what comes next by the item alone. -/
theorem depthFirst_eq_forM {handle : α → m (List α)} {visit : α → m PUnit} (reached : α → Prop)
    (handles : ∀ item, reached item → handle item = (do visit item; pure (next item)))
    (closed : ∀ item, reached item → ∀ below ∈ next item, reached below)
    (levels : Nat) (item : α) (start : reached item) :
    depthFirst handle levels item = (preorder next levels item).forM visit := by
  induction levels generalizing item with
  | zero => rfl
  | succ levels inductionHypothesis =>
      have rest : (next item).forM (depthFirst handle levels) =
          ((next item).flatMap (preorder next levels)).forM visit := by
        rw [forM_flatMap_list]
        exact forM_congr_list fun below inside =>
          inductionHypothesis below (closed item start below inside)
      rw [depthFirst, handles item start, preorder, bind_assoc]
      simp only [pure_bind]
      rw [rest]
      rfl

end Visits

/-! ## Visits that edit -/

namespace Edit

variable {σ : Type} {handle : α → Edit σ (List α)}

/-- A visit keeps what the handling of every item keeps. -/
theorem keeps_depthFirst {invariant : σ → Prop} (keeps : ∀ item, Keeps invariant (handle item))
    (levels : Nat) (item : α) : Keeps invariant (depthFirst handle levels item) := by
  induction levels generalizing item with
  | zero => exact keeps_pure _
  | succ levels inductionHypothesis =>
      exact (keeps item).bind fun _ => keeps_forM inductionHypothesis _

/-- A visit of no levels does nothing. -/
theorem effect_forM_depthFirst_zero (items : List α) (state : σ) :
    (items.forM (depthFirst handle 0)).effect state = (.ok ⟨⟩, state) := by
  induction items with
  | nil => rfl
  | cons item items inductionHypothesis =>
      exact (effect_forM_cons_of_ok rfl).trans inductionHypothesis

/-- After a visit that succeeds, what every handling that succeeds tells of its item holds of the whole
pre-order. -/
theorem forall_of_depthFirst {sound : α → Prop}
    (step : ∀ state item below after, (handle item).effect state = (.ok below, after) →
      below = next item ∧ sound item)
    {levels : Nat} {item : α} {state after : σ}
    (ok : (depthFirst handle levels item).effect state = (.ok ⟨⟩, after)) :
    ∀ visited ∈ preorder next levels item, sound visited := by
  induction levels generalizing item state after with
  | zero => exact fun _ inside => absurd inside List.not_mem_nil
  | succ levels inductionHypothesis =>
      have lists : ∀ (items : List α) (state after : σ),
          (items.forM (depthFirst handle levels)).effect state = (.ok ⟨⟩, after) →
          ∀ visited ∈ items.flatMap (preorder next levels), sound visited := by
        intro items
        induction items with
        | nil => exact fun _ _ _ _ inside => absurd inside List.not_mem_nil
        | cons first items inductionHypothesis' =>
            intro state after ok visited inside
            obtain ⟨⟨⟩, middle, ok, rest⟩ := effect_bind_eq_ok ok
            rw [List.flatMap_cons, List.mem_append] at inside
            exact inside.elim (inductionHypothesis ok visited)
              (inductionHypothesis' middle after rest visited)
      obtain ⟨below, middle, handled, rest⟩ := effect_bind_eq_ok ok
      obtain ⟨rfl, here⟩ := step state item below middle handled
      intro visited inside
      rcases List.mem_cons.mp inside with rfl | inside
      · exact here
      · exact lists _ _ _ rest visited inside

/-- What holds after every item that was handled holds after the visit of a list of items, if the
handling lets the items that wait be handled. -/
theorem after_forM_depthFirst (invariant : σ → Prop) (ready : σ → α → Prop)
    (step : ∀ state item below after, invariant state → ready state item →
      (handle item).effect state = (.ok below, after) →
      invariant after ∧ (∀ next ∈ below, ready after next) ∧
        ∀ other, ready state other → ready after other)
    {levels : Nat} {items : List α} {state after : σ} (start : invariant state)
    (readied : ∀ item ∈ items, ready state item)
    (ok : (items.forM (depthFirst handle levels)).effect state = (.ok ⟨⟩, after)) :
    invariant after ∧ ∀ other, ready state other → ready after other := by
  induction levels generalizing items state after with
  | zero =>
      rw [effect_forM_depthFirst_zero, Prod.mk.injEq] at ok
      obtain ⟨-, rfl⟩ := ok
      exact ⟨start, fun _ ready => ready⟩
  | succ levels inductionHypothesis =>
      induction items generalizing state with
      | nil =>
          cases ok
          exact ⟨start, fun _ ready => ready⟩
      | cons item items inductionHypothesis' =>
          obtain ⟨⟨⟩, middle, visited, rest⟩ := effect_bind_eq_ok ok
          obtain ⟨below, handled, stepped, visitedBelow⟩ := effect_bind_eq_ok visited
          obtain ⟨kept, readyBelow, stable⟩ :=
            step state item below handled start (readied item List.mem_cons_self) stepped
          obtain ⟨keptBelow, stableBelow⟩ := inductionHypothesis kept readyBelow visitedBelow
          obtain ⟨keptAfter, stableAfter⟩ := inductionHypothesis' keptBelow
            (fun other inside => stableBelow other
              (stable other (readied other (List.mem_cons_of_mem _ inside)))) rest
          exact ⟨keptAfter, fun other ready =>
            stableAfter other (stableBelow other (stable other ready))⟩

/-- A visit whose handling names what comes next by the item alone, as long as an invariant of the
state holds, takes the items in pre-order. -/
theorem effect_depthFirst {visit : α → Edit σ PUnit} (reached : α → Prop) (invariant : σ → Prop)
    (handles : ∀ item state, reached item → invariant state → ∃ after,
      (handle item).effect state = (.ok (next item), after) ∧
      (visit item).effect state = (.ok ⟨⟩, after) ∧ invariant after)
    (closed : ∀ item, reached item → ∀ below ∈ next item, reached below)
    (levels : Nat) (item : α) {state : σ} (start : reached item) (holds : invariant state) :
    (depthFirst handle levels item).effect state =
        ((preorder next levels item).forM visit).effect state ∧
      ∃ after, (depthFirst handle levels item).effect state = (.ok ⟨⟩, after) ∧
        invariant after := by
  induction levels generalizing item state with
  | zero => exact ⟨rfl, state, rfl, holds⟩
  | succ levels inductionHypothesis =>
      obtain ⟨middle, handled, visited, kept⟩ := handles item state start holds
      have rest : ∀ (items : List α) (state : σ), (∀ below ∈ items, reached below) →
          invariant state → (items.forM (depthFirst handle levels)).effect state =
              ((items.flatMap (preorder next levels)).forM visit).effect state ∧
            ∃ after, (items.forM (depthFirst handle levels)).effect state = (.ok ⟨⟩, after) ∧
              invariant after := by
        intro items
        induction items with
        | nil => exact fun state _ holds => ⟨rfl, state, rfl, holds⟩
        | cons below items inductionHypothesis' =>
            intro state among holds
            obtain ⟨same, after, ok, kept⟩ :=
              inductionHypothesis below (among below List.mem_cons_self) holds
            obtain ⟨sameRest, last, okRest, keptRest⟩ := inductionHypothesis' after
              (fun other inside => among other (List.mem_cons_of_mem _ inside)) kept
            rw [effect_forM_cons_of_ok ok, List.flatMap_cons,
              effect_forM_append_of_ok (same.symm.trans ok)]
            exact ⟨sameRest, last, okRest, keptRest⟩
      obtain ⟨same, after, ok, keptAfter⟩ := rest (next item) middle (closed item start) kept
      rw [depthFirst, effect_bind_of_ok handled, preorder]
      exact ⟨same.trans (effect_forM_cons_of_ok visited).symm, after, ok, keptAfter⟩

/-- A visit succeeds if every item that is ready is handled with success, and that makes what comes
next ready. In the end each item of the pre-order is done. -/
theorem exists_depthFirst (invariant : σ → Prop) (ready done : σ → α → Prop)
    (step : ∀ state item, invariant state → ready state item → ∃ after,
      (handle item).effect state = (.ok (next item), after) ∧ invariant after ∧ done after item ∧
      (∀ below ∈ next item, ready after below) ∧
      ∀ other, (ready state other → ready after other) ∧ (done state other → done after other))
    (levels : Nat) (item : α) {state : σ} (start : invariant state) (readied : ready state item) :
    ∃ after, (depthFirst handle levels item).effect state = (.ok ⟨⟩, after) ∧ invariant after ∧
      (∀ other ∈ preorder next levels item, done after other) ∧
      ∀ other, (ready state other → ready after other) ∧ (done state other → done after other) := by
  induction levels generalizing item state with
  | zero => exact ⟨state, rfl, start, fun _ inside => absurd inside List.not_mem_nil, fun _ => ⟨id, id⟩⟩
  | succ levels inductionHypothesis =>
      obtain ⟨middle, handled, kept, doneHere, readyBelow, stable⟩ := step state item start readied
      have rest : ∀ (items : List α) (state : σ), invariant state →
          (∀ below ∈ items, ready state below) → ∃ after,
            (items.forM (depthFirst handle levels)).effect state = (.ok ⟨⟩, after) ∧
            invariant after ∧ (∀ other ∈ items.flatMap (preorder next levels), done after other) ∧
            ∀ other, (ready state other → ready after other) ∧
              (done state other → done after other) := by
        intro items
        induction items with
        | nil =>
            exact fun state kept _ => ⟨state, rfl, kept,
              fun _ inside => absurd inside List.not_mem_nil, fun _ => ⟨id, id⟩⟩
        | cons first items inductionHypothesis' =>
            intro state kept readied
            obtain ⟨after, visited, kept, doneFirst, stable⟩ :=
              inductionHypothesis first kept (readied first List.mem_cons_self)
            obtain ⟨last, ok, kept, doneRest, stable'⟩ := inductionHypothesis' after kept
              fun other inside => (stable other).1 (readied other (List.mem_cons_of_mem _ inside))
            refine ⟨last, (effect_forM_cons_of_ok visited).trans ok, kept, fun other inside => ?_,
              fun other => ⟨fun ready => (stable' other).1 ((stable other).1 ready),
                fun done => (stable' other).2 ((stable other).2 done)⟩⟩
            rw [List.flatMap_cons, List.mem_append] at inside
            exact inside.elim (fun here => (stable' other).2 (doneFirst other here)) (doneRest other)
      obtain ⟨after, ok, kept, doneBelow, stable'⟩ := rest (next item) middle kept readyBelow
      refine ⟨after, (effect_bind_of_ok handled).trans ok, kept, fun other inside => ?_,
        fun other => ⟨fun ready => (stable' other).1 ((stable other).1 ready),
          fun done => (stable' other).2 ((stable other).2 done)⟩⟩
      rcases List.mem_cons.mp inside with rfl | below
      · exact (stable' other).2 doneHere
      · exact doneBelow other below

end Edit

/-! ## Keys and visits of trees -/

/-- Reads of a list of items succeed if each of them does, and give the list of what they give. -/
theorem Read.result_mapM_iff {items : List α} {read : α → Read β} {values : List β} :
    (items.mapM read).result = .ok values ↔
      List.Forall₂ (fun item value => (read item).result = .ok value) items values := by
  induction items generalizing values with
  | nil =>
      rw [List.forall₂_nil_left_iff]
      exact ⟨fun ok => (Except.ok.inj ok).symm, fun empty => congrArg Except.ok empty.symm⟩
  | cons item items inductionHypothesis =>
      rw [List.mapM_cons, List.forall₂_cons_left_iff]
      constructor
      · intro ok
        obtain ⟨value, first, ok⟩ := Read.result_bind_eq_ok ok
        obtain ⟨rest, later, ok⟩ := Read.result_bind_eq_ok ok
        exact ⟨value, rest, first, inductionHypothesis.mp later, (Except.ok.inj ok).symm⟩
      · rintro ⟨value, rest, first, later, rfl⟩
        rw [Read.result_bind_of_ok first, Read.result_bind_of_ok (inductionHypothesis.mpr later)]
        rfl

/-- Reads that all succeed give the list of what they give. -/
theorem Read.result_mapM {items : List α} {read : α → Read β} {value : α → β}
    (ok : ∀ item ∈ items, (read item).result = .ok (value item)) :
    (items.mapM read).result = .ok (items.map value) :=
  Read.result_mapM_iff.mpr (List.forall₂_map_right_iff.mpr (List.forall₂_same.mpr ok))

namespace Tree

variable {C : Type} {tree : Tree C} {next : Key → List Key}

/-- The keys that a tree tells are in pre-order, if the children of each of them can be read. -/
theorem result_keysWithin (reached : Key → Prop)
    (reads : ∀ key, reached key → (tree.children key).result = .ok (next key))
    (closed : ∀ key, reached key → ∀ below ∈ next key, reached below)
    (levels : Nat) (key : Key) (start : reached key) :
    (tree.keysWithin levels key).result = .ok (preorder next levels key) := by
  induction levels generalizing key with
  | zero => rfl
  | succ levels inductionHypothesis =>
      have below := Read.result_mapM fun child inside =>
        inductionHypothesis child (closed key start child inside)
      rw [keysWithin, Read.result_bind, reads key start]
      change ((next key).mapM (tree.keysWithin levels) >>= fun lists =>
        pure (key :: lists.flatten)).result = _
      rw [Read.result_bind, below, preorder, List.flatMap_def]
      rfl

end Tree

end VersionedTrees
