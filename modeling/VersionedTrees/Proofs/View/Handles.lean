import VersionedTrees.Proofs.View.Failures

/-!
# Handles of a merged view

A handle is read through a view that may not be the one that gave it. The view first compares the
generation that the handle records with its own. That comparison is the only thing that can find a
handle stale: no view, however it is nested, reports a stale handle of itself
(`View.neverStale`). So a view that looks for stale handles reports one exactly when the two
generations differ (`Merged.reportsStale_iff`), whichever of the four questions it is asked.
-/

namespace VersionedTrees

variable {C α β : Type}

/-! ## Reads that find nothing stale -/

namespace Read

/-- A read does not fail for the age of a handle. -/
def NeverStale (read : Read α) : Prop :=
  ∀ recorded current, read.result ≠ .error (.staleHandle recorded current)

theorem neverStale_of_ok {read : Read α} {value : α} (ok : read.result = .ok value) :
    read.NeverStale :=
  fun _ _ failed => nomatch ok.symm.trans failed

theorem neverStale_pure (value : α) : (pure value : Read α).NeverStale :=
  neverStale_of_ok rfl

theorem neverStale_of_error {read : Read α} {error : TreeError}
    (failed : read.result = .error error)
    (other : ∀ recorded current, error ≠ .staleHandle recorded current) : read.NeverStale :=
  fun recorded current stale => other recorded current (Except.error.inj (failed.symm.trans stale))

theorem NeverStale.bind {first : Read α} {next : α → Read β} (fresh : first.NeverStale)
    (rest : ∀ value, first.result = .ok value → (next value).NeverStale) :
    (first >>= next).NeverStale := by
  intro recorded current
  cases ended : first.result with
  | error error =>
      rw [result_bind_of_error ended]
      intro stale
      cases stale
      exact fresh recorded current ended
  | ok value =>
      rw [result_bind_of_ok ended]
      exact rest value ended recorded current

theorem neverStale_fail {error : TreeError}
    (other : ∀ recorded current, error ≠ .staleHandle recorded current) :
    (fail error : Read α).NeverStale :=
  neverStale_of_error rfl other

theorem composes_neverStale : Composes fun _ => NeverStale :=
  ⟨neverStale_pure, NeverStale.bind⟩

theorem neverStale_orFail {error : TreeError}
    (other : ∀ recorded current, error ≠ .staleHandle recorded current) (option : Option α) :
    (orFail error option).NeverStale :=
  composes_neverStale.orFail (neverStale_fail other) option

end Read

namespace Tree

/-- No answer of a tree is that a handle is stale. -/
structure NeverStale (tree : Tree C) : Prop where
  root : tree.root.NeverStale
  rootKey : tree.rootKey.NeverStale
  node : ∀ key, (tree.node key).NeverStale
  contains : ∀ key, (tree.contains key).NeverStale
  parent : ∀ key, (tree.parent key).NeverStale
  children : ∀ key, (tree.children key).NeverStale

theorem NeverStale.payload {tree : Tree C} (fresh : tree.NeverStale) (key : Key) :
    (tree.payload key).NeverStale :=
  (fresh.node key).bind fun node _ =>
    (Read.neverStale_orFail (by nofun) node).bind fun _ _ => Read.neverStale_pure _

theorem NeverStale.renamed {tree : Tree C} (fresh : tree.NeverStale) (keys : KeyMap) :
    (tree.renamed keys).NeverStale := by
  have root : (tree.renamed keys).root.NeverStale :=
    fresh.root.bind fun _ _ => Read.neverStale_pure _
  have node : ∀ key, ((tree.renamed keys).node key).NeverStale := by
    intro key
    change (renamed.node tree keys key).NeverStale
    rw [renamed.node]
    cases keys.back? key with
    | none => exact Read.neverStale_pure _
    | some back => exact (fresh.node back).bind fun _ _ => Read.neverStale_pure _
  have backKey : ∀ key, (renamed.backKey keys key).NeverStale :=
    fun key => Read.neverStale_orFail (by nofun) _
  exact {
    root
    rootKey := root.bind fun _ _ => Read.neverStale_pure _
    node
    contains := fun key => (node key).bind fun _ _ => Read.neverStale_pure _
    parent := fun key => (backKey key).bind fun back _ =>
      (fresh.parent back).bind fun _ _ => Read.neverStale_pure _
    children := fun key => (backKey key).bind fun back _ =>
      (fresh.children back).bind fun _ _ => Read.neverStale_pure _ }

end Tree

theorem Store.neverStale (store : Store C) : store.tree.NeverStale := by
  have ofSlot : ∀ {γ : Type} (key : Key) (part : Slot C → γ),
      (Read.ofExcept ((store.slot key).map part)).NeverStale := by
    intro γ key part
    rw [Store.slot]
    cases store.slot? key with
    | none => exact Read.neverStale_of_error rfl fun _ _ stale => by cases stale
    | some slot => exact Read.neverStale_of_ok rfl
  exact {
    root := Read.neverStale_pure _
    rootKey := Read.neverStale_pure _
    node := fun _ => Read.neverStale_pure _
    contains := fun _ => Read.neverStale_pure _
    parent := fun key => ofSlot key (·.parent)
    children := fun key => ofSlot key (·.children.toList) }

namespace Merged

variable {view : Merged C} {handle : Handle} {key : Key}

/-! ## What a view gives -/

/-- The handles that a view gives: by key, the root, and next to any handle that it is asked about. -/
inductive Gives (view : Merged C) : Handle → Prop where
  | get {key : Key} {handle : Handle} (ok : (view.get key).result = .ok (some handle)) :
      Gives view handle
  | root {handle : Handle} (ok : view.getRoot.result = .ok (some handle)) : Gives view handle
  | parent {below handle : Handle} (ok : (view.parentOf below).result = .ok (some handle)) :
      Gives view handle
  | child {above handle : Handle} {handles : List Handle}
      (ok : (view.childrenOf above).result = .ok handles) (mem : handle ∈ handles) :
      Gives view handle

theorem generation_of_get (ok : (view.get key).result = .ok (some handle)) :
    handle.generation = view.generation := by
  obtain ⟨located, -, ok⟩ := Read.result_bind_eq_ok ok
  obtain ⟨side, -, rfl⟩ := Option.map_eq_some_iff.mp (Except.ok.inj ok)
  rfl

theorem generation_of_getRoot (ok : view.getRoot.result = .ok (some handle)) :
    handle.generation = view.generation := by
  obtain ⟨front, -, ok⟩ := Read.result_bind_eq_ok ok
  cases front with
  | some root => exact generation_of_get ok
  | none =>
      obtain ⟨back, -, ok⟩ := Read.result_bind_eq_ok ok
      cases back with
      | none => cases ok
      | some root =>
          simp only at ok
          split at ok
          · cases ok
          · obtain ⟨key, -, rfl⟩ := Option.map_eq_some_iff.mp (Except.ok.inj ok)
            rfl

theorem generation_of_frontChildren {keys : List Key} {handles : List Handle}
    (ok : (view.frontChildren keys).result = .ok handles) :
    ∀ handle ∈ handles, handle.generation = view.generation := by
  induction keys generalizing handles with
  | nil =>
      cases ok
      exact fun _ mem => absurd mem List.not_mem_nil
  | cons key keys inductionHypothesis =>
      obtain ⟨located, -, ok⟩ := Read.result_bind_eq_ok ok
      obtain ⟨others, told, ok⟩ := Read.result_bind_eq_ok ok
      cases ok
      intro handle mem
      rcases List.mem_append.mp mem with first | other
      · obtain ⟨side, -, rfl⟩ := Option.map_eq_some_iff.mp (Option.mem_toList.mp first)
        rfl
      · exact inductionHypothesis told handle other

/-- Every handle records the generation of the view that gave it. -/
theorem Gives.generation_eq (gives : view.Gives handle) : handle.generation = view.generation := by
  cases gives with
  | get ok => exact generation_of_get ok
  | root ok => exact generation_of_getRoot ok
  | parent ok =>
      obtain ⟨⟨⟩, -, ok⟩ := Read.result_bind_eq_ok ok
      obtain ⟨parent, -, ok⟩ := Read.result_bind_eq_ok ok
      cases parent with
      | none => cases ok
      | some key => exact generation_of_get ok
  | @child above handle handles ok mem =>
      obtain ⟨⟨⟩, -, ok⟩ := Read.result_bind_eq_ok ok
      cases side : above.side with
      | front =>
          rw [side] at ok
          obtain ⟨keys, -, ok⟩ := Read.result_bind_eq_ok ok
          exact generation_of_frontChildren ok handle mem
      | back key =>
          rw [side] at ok
          obtain ⟨keys, -, ok⟩ := Read.result_bind_eq_ok ok
          cases ok
          obtain ⟨back, -, paired⟩ := List.mem_filterMap.mp mem
          obtain ⟨front, -, rfl⟩ := Option.map_eq_some_iff.mp paired
          rfl

/-! ## What is asked of a handle -/

/-- The questions about a handle. -/
inductive Accessor where
  | key
  | content
  | parent
  | children
deriving DecidableEq

/-- Asks a question about a handle, and keeps of the answer only whether there is one. -/
def ask (view : Merged C) (handle : Handle) : Accessor → Read Unit
  | .key => do let _ ← view.keyOf handle
  | .content => do let _ ← view.content handle
  | .parent => do let _ ← view.parentOf handle
  | .children => do let _ ← view.childrenOf handle

/-- The answer to a question is that the handle is stale. -/
def ReportsStale (view : Merged C) (handle : Handle) (accessor : Accessor) : Prop :=
  ∃ recorded current, (view.ask handle accessor).result = .error (.staleHandle recorded current)

section Fresh

variable (front : view.front.NeverStale) (back : view.back.NeverStale)

/-- A trap takes failures away, and adds none. -/
theorem neverStale_trapped {read : Read (Option α)} (fresh : read.NeverStale) :
    (view.trapped read).NeverStale := by
  rw [trapped]
  split
  · exact Read.neverStale_pure _
  · exact fresh

theorem neverStale_unresolved (α : Type) (reference : Reference) :
    (Read.fail (.unresolved reference) : Read α).NeverStale :=
  Read.neverStale_fail nofun

include front back

theorem neverStale_trapped_locate (key : Key) : (view.trapped (view.locate key)).NeverStale :=
  neverStale_trapped
    (Read.composes_neverStale.locate neverStale_unresolved back.contains (front.node key))

theorem neverStale_get (key : Key) : (view.get key).NeverStale :=
  Read.composes_neverStale.get (neverStale_trapped_locate front back key)

theorem neverStale_getRoot : view.getRoot.NeverStale :=
  Read.composes_neverStale.getRoot front.rootKey back.rootKey (neverStale_get front back)

end Fresh

/-- A read about a handle first compares the generations, and finds nothing stale after that. -/
def Guards (view : Merged C) (handle : Handle) (read : Read α) : Prop :=
  ∃ answer : Read α, answer.NeverStale ∧ read = view.check handle >>= fun _ => answer

theorem Guards.bind {read : Read α} {next : α → Read β} (guards : view.Guards handle read)
    (fresh : ∀ value, (next value).NeverStale) : view.Guards handle (read >>= next) := by
  obtain ⟨answer, freshAnswer, rfl⟩ := guards
  exact ⟨answer >>= next, freshAnswer.bind fun value _ => fresh value, bind_assoc _ _ _⟩

/-- A read of a handle of the same generation finds nothing stale. -/
theorem Guards.neverStale {read : Read α} (guards : view.Guards handle read)
    (same : handle.generation = view.generation) : read.NeverStale := by
  obtain ⟨answer, freshAnswer, rfl⟩ := guards
  exact (Read.neverStale_of_ok (result_check_of_eq same)).bind fun _ _ => freshAnswer

/-- A view that looks for stale handles finds one exactly when the generations differ. -/
theorem Guards.stale_iff {read : Read α} (guards : view.Guards handle read) :
    (∃ recorded current, read.result = .error (.staleHandle recorded current)) ↔
      view.settings.checkStaleness = true ∧ handle.generation ≠ view.generation := by
  obtain ⟨answer, freshAnswer, rfl⟩ := guards
  by_cases passes : (!view.settings.checkStaleness ||
      decide (handle.generation = view.generation)) = true
  · have passed : (view.check handle).result = .ok () := Read.result_require_of_true passes
    rw [Read.result_bind_of_ok passed]
    refine iff_of_false (fun ⟨recorded, current, stale⟩ => freshAnswer recorded current stale) ?_
    rintro ⟨checks, differs⟩
    simp [checks, differs] at passes
  · rw [Bool.not_eq_true] at passes
    have refused : (view.check handle).result =
        .error (.staleHandle handle.generation view.generation) :=
      Read.result_require_of_false passes
    rw [Read.result_bind_of_error refused]
    refine iff_of_true ⟨_, _, rfl⟩ ?_
    simpa using passes

section Fresh

variable (front : view.front.NeverStale) (back : view.back.NeverStale)

theorem guards_keyOf (handle : Handle) : view.Guards handle (view.keyOf handle) :=
  ⟨pure handle.key, Read.neverStale_pure _, rfl⟩

include front back

theorem guards_content (handle : Handle) : view.Guards handle (view.content handle) := by
  refine ⟨_, ?_, rfl⟩
  refine neverStale_trapped ?_
  cases handle.side with
  | front =>
      exact Read.composes_neverStale.frontContent neverStale_unresolved back.contains
        (front.payload _) back.node
  | back key =>
      exact Read.composes_neverStale.backContent neverStale_unresolved (back.payload key)

theorem guards_parentOf (handle : Handle) : view.Guards handle (view.parentOf handle) := by
  refine ⟨_, ?_, rfl⟩
  refine (Read.composes_neverStale.parentKey handle front.node front.parent back.parent).bind
    fun parent _ => ?_
  cases parent with
  | none => exact Read.neverStale_pure _
  | some key => exact neverStale_get front back key

theorem guards_childrenOf (handle : Handle) : view.Guards handle (view.childrenOf handle) := by
  refine ⟨_, ?_, rfl⟩
  cases handle.side with
  | front =>
      exact (front.children _).bind fun keys _ =>
        Read.composes_neverStale.frontChildren (neverStale_trapped_locate front back) keys
  | back key => exact (back.children key).bind fun _ _ => Read.neverStale_pure _

/-- Whatever a view over such trees is asked about a handle, it reports the handle as stale exactly
when it looks for that and the generations differ. -/
theorem reportsStale_iff (handle : Handle) (accessor : Accessor) :
    view.ReportsStale handle accessor ↔
      view.settings.checkStaleness = true ∧ handle.generation ≠ view.generation := by
  have asked : view.Guards handle (view.ask handle accessor) := by
    cases accessor with
    | key => exact (guards_keyOf handle).bind fun _ => Read.neverStale_pure _
    | content => exact (guards_content front back handle).bind fun _ => Read.neverStale_pure _
    | parent => exact (guards_parentOf front back handle).bind fun _ => Read.neverStale_pure _
    | children => exact (guards_childrenOf front back handle).bind fun _ => Read.neverStale_pure _
  exact asked.stale_iff

/-- A merged view finds none of the handles stale that it makes while it answers. -/
theorem neverStale : view.tree.NeverStale := by
  have materialize : ∀ handle, handle.generation = view.generation →
      (view.materialize handle).NeverStale := fun handle same =>
    ((guards_content front back handle).neverStale same).bind fun _ _ => Read.neverStale_pure _
  have required : ∀ key, (view.require key).NeverStale := fun key =>
    (neverStale_get front back key).bind fun found _ => Read.neverStale_orFail (by nofun) found
  have generation : ∀ {key handle}, (view.require key).result = .ok handle →
      handle.generation = view.generation := by
    intro key handle ok
    obtain ⟨found, got, ok⟩ := Read.result_bind_eq_ok ok
    rw [Read.result_orFail_eq_ok_iff] at ok
    subst ok
    exact generation_of_get got
  have root : view.rootNode.NeverStale := by
    refine (neverStale_getRoot front back).bind fun found got => ?_
    cases found with
    | none => exact Read.neverStale_pure _
    | some handle => exact materialize handle (generation_of_getRoot got)
  exact {
    root
    rootKey := root.bind fun _ _ => Read.neverStale_pure _
    node := fun key => by
      refine (neverStale_get front back key).bind fun found got => ?_
      cases found with
      | none => exact Read.neverStale_pure _
      | some handle => exact materialize handle (generation_of_get got)
    contains := fun key =>
      (neverStale_get front back key).bind fun _ _ => Read.neverStale_pure _
    parent := fun key => (required key).bind fun handle found =>
      ((guards_parentOf front back handle).neverStale (generation found)).bind fun _ _ =>
        Read.neverStale_pure _
    children := fun key => (required key).bind fun handle found =>
      ((guards_childrenOf front back handle).neverStale (generation found)).bind fun _ _ =>
        Read.neverStale_pure _ }

end Fresh

end Merged

/-- No view reports a stale handle of itself, however views are nested. -/
theorem View.neverStale (view : View C) : view.tree.NeverStale := by
  induction view with
  | store held => exact held.neverStale
  | renamed inner keys inductionHypothesis => exact inductionHypothesis.renamed keys
  | merged front back keys hidden settings trap freshFront freshBack =>
      exact Merged.neverStale freshFront freshBack

end VersionedTrees
