import VersionedTrees.Proofs.View.Reads
import VersionedTrees.View.Basic

/-!
# How reads fail

Reads fail for reasons of a few families (`TreeError.kind`). `Read.Avoids` says that a read does not
fail for a reason of one family, whatever its events are, and `Read.Silent` that it has no events,
however it ends. Both go along with sequences. What does (`Read.Composes`) holds of the functions of a
merged view if it holds of the reads that these make; this is said once for each function.
-/

namespace VersionedTrees

variable {C α β : Type} {kind : ErrorKind}

namespace Read

variable {first : Read α} {next : α → Read β}

/-! ## Failures of one family -/

/-- A read does not fail for a reason of one family. -/
def Avoids (kind : ErrorKind) (read : Read α) : Prop :=
  ∀ error, read.result = .error error → error.kind ≠ kind

theorem avoids_of_ok {read : Read α} {value : α} (ok : read.result = .ok value) :
    read.Avoids kind :=
  fun _ failed => nomatch ok.symm.trans failed

theorem avoids_pure (value : α) : (pure value : Read α).Avoids kind :=
  avoids_of_ok rfl

theorem avoids_of_error {read : Read α} {error : TreeError} (failed : read.result = .error error)
    (other : error.kind ≠ kind) : read.Avoids kind :=
  fun _ failed' => Except.error.inj (failed.symm.trans failed') ▸ other

theorem Avoids.bind (avoids : first.Avoids kind)
    (rest : ∀ value, first.result = .ok value → (next value).Avoids kind) :
    (first >>= next).Avoids kind := by
  intro error failed
  cases ended : first.result with
  | error reason =>
      rw [result_bind_of_error ended] at failed
      cases failed
      exact avoids _ ended
  | ok value =>
      rw [result_bind_of_ok ended] at failed
      exact rest value ended error failed

/-- A read whose value is changed fails as the read does. -/
theorem result_bind_pure_eq_error_iff {read : Read α} {change : α → β} {error : TreeError} :
    (read >>= fun value => pure (change value)).result = .error error ↔
      read.result = .error error := by
  rcases read with ⟨events, result⟩
  cases result with
  | error reason =>
      constructor
      · rintro ⟨⟩
        rfl
      · rintro ⟨⟩
        rfl
  | ok value => exact iff_of_false nofun nofun

/-! ## Reads without events -/

/-- A read reports nothing, however it ends. -/
def Silent (read : Read α) : Prop :=
  read.events = []

theorem silent_pure (value : α) : (pure value : Read α).Silent :=
  rfl

theorem silent_fail (α : Type) (error : TreeError) : (fail error : Read α).Silent :=
  rfl

theorem Silent.bind (silent : first.Silent)
    (rest : ∀ value, first.result = .ok value → (next value).Silent) : (first >>= next).Silent := by
  change (first >>= next).events = []
  rw [events_bind, show first.events = [] from silent]
  cases ended : first.result with
  | error error => rfl
  | ok value => exact rest value ended

/-! ## Properties of sequences -/

/-- A property of reads that values have, and sequences of reads that have it. -/
structure Composes (holds : ∀ α : Type, Read α → Prop) : Prop where
  value : ∀ {α : Type} (value : α), holds α (pure value)
  sequence : ∀ {α β : Type} {first : Read α} {next : α → Read β}, holds α first →
    (∀ value, first.result = .ok value → holds β (next value)) → holds β (first >>= next)

theorem composes_avoids (kind : ErrorKind) : Composes fun _ => Avoids kind :=
  ⟨avoids_pure, Avoids.bind⟩

theorem composes_silent : Composes fun _ => Silent :=
  ⟨silent_pure, Silent.bind⟩

namespace Composes

variable {holds : ∀ α : Type, Read α → Prop} (composes : Composes holds)
include composes

theorem require {condition : Bool} {error : TreeError} (fails : holds Unit (fail error)) :
    holds Unit (require condition error) := by
  cases condition with
  | true => exact composes.value ()
  | false => exact fails

theorem orFail {error : TreeError} (fails : holds α (fail error)) (option : Option α) :
    holds α (orFail error option) := by
  cases option with
  | none => exact fails
  | some value => exact composes.value value

/-! ## Merged views -/

variable {view : Merged C} {key : Key}

section Unresolved

variable (fails : ∀ α reference, holds α (fail (.unresolved reference)))
  (contains : ∀ key, holds Bool (view.back.contains key))
include fails

theorem backContent (payload : holds _ (view.back.payload key)) :
    holds _ (view.backContent key) := by
  refine composes.sequence payload fun payload _ => ?_
  cases payload with
  | content value => exact composes.value _
  | nodeReference reference | treeReference reference => exact fails _ reference

include contains

theorem backingTarget (reference : Reference) : holds _ (view.backingTarget reference) :=
  composes.sequence (composes.require (fails _ reference)) fun _ _ =>
    composes.sequence (contains _) fun _ _ =>
      composes.sequence (composes.require (fails _ reference)) fun _ _ => composes.value _

theorem locate (node : holds _ (view.front.node key)) : holds _ (view.locate key) := by
  refine composes.sequence node fun node _ => ?_
  cases node with
  | some node =>
      cases payload : node.payload with
      | treeReference reference =>
          simp only [payload]
          exact composes.sequence (composes.backingTarget fails contains reference)
            fun _ _ => composes.value _
      | content value | nodeReference reference =>
          simp only [payload]
          exact composes.value _
  | none =>
      cases view.keys.back? key with
      | none => exact composes.value _
      | some other =>
          simp only
          split
          · exact composes.value _
          · refine composes.sequence (contains other) fun there _ => ?_
            cases there <;> exact composes.value _

theorem frontContent (payload : holds _ (view.front.payload key))
    (node : ∀ key, holds _ (view.back.node key)) : holds _ (view.frontContent key) := by
  refine composes.sequence payload fun payload _ => ?_
  cases payload with
  | content value => exact composes.value _
  | nodeReference reference | treeReference reference =>
      refine composes.sequence (composes.backingTarget fails contains reference) fun target _ => ?_
      refine composes.sequence (node target) fun node _ => ?_
      split
      · exact composes.value _
      · exact fails _ reference

end Unresolved

theorem get (located : holds _ (view.trapped (view.locate key))) : holds _ (view.get key) :=
  composes.sequence located fun _ _ => composes.value _

theorem getRoot (front : holds _ view.front.rootKey) (back : holds _ view.back.rootKey)
    (get : ∀ key, holds _ (view.get key)) : holds _ view.getRoot := by
  refine composes.sequence front fun root _ => ?_
  cases root with
  | some root => exact get root
  | none =>
      refine composes.sequence back fun root _ => ?_
      cases root with
      | none => exact composes.value _
      | some root =>
          simp only
          split <;> exact composes.value _

theorem parentKey (handle : Handle) (node : ∀ key, holds _ (view.front.node key))
    (front : ∀ key, holds _ (view.front.parent key)) (back : ∀ key, holds _ (view.back.parent key)) :
    holds _ (view.parentKey handle) := by
  rw [Merged.parentKey]
  cases handle.side with
  | front => exact front _
  | back key =>
      have kind : holds _ (view.isFrontTreeReference handle.key) :=
        composes.sequence (node _) fun _ _ => composes.value _
      refine composes.sequence kind fun isReference _ => ?_
      cases isReference with
      | true => exact front _
      | false => exact composes.sequence (back key) fun _ _ => composes.value _

theorem frontChildren (located : ∀ key, holds _ (view.trapped (view.locate key))) (keys : List Key) :
    holds _ (view.frontChildren keys) := by
  induction keys with
  | nil => exact composes.value _
  | cons key keys inductionHypothesis =>
      exact composes.sequence (located key) fun _ _ =>
        composes.sequence inductionHypothesis fun _ _ => composes.value _

end Composes

end Read

namespace Tree

variable {tree : Tree C}

/-- No answer of a tree is a failure of one family. -/
structure Avoids (kind : ErrorKind) (tree : Tree C) : Prop where
  root : tree.root.Avoids kind
  rootKey : tree.rootKey.Avoids kind
  node : ∀ key, (tree.node key).Avoids kind
  contains : ∀ key, (tree.contains key).Avoids kind
  parent : ∀ key, (tree.parent key).Avoids kind
  children : ∀ key, (tree.children key).Avoids kind

/-- The look-ups of a tree report nothing. -/
structure Silent (tree : Tree C) : Prop where
  node : ∀ key, (tree.node key).Silent
  contains : ∀ key, (tree.contains key).Silent

theorem Silent.payload (silent : tree.Silent) (key : Key) : (tree.payload key).Silent :=
  (silent.node key).bind fun node _ =>
    (Read.composes_silent.orFail (Read.silent_fail _ _) node).bind fun _ _ => Read.silent_pure _

end Tree

namespace Store

/-- A store reports nothing. -/
theorem silent (store : Store C) : store.tree.Silent :=
  ⟨fun _ => Read.silent_pure _, fun _ => Read.silent_pure _⟩

/-- A store fails for want of a node only. -/
theorem avoids (store : Store C) (other : kind ≠ .missingNode) : store.tree.Avoids kind := by
  have ofSlot : ∀ {γ : Type} (key : Key) (part : Slot C → γ),
      (Read.ofExcept ((store.slot key).map part)).Avoids kind := by
    intro γ key part
    rw [Store.slot]
    cases store.slot? key with
    | none => exact Read.avoids_of_error rfl other.symm
    | some slot => exact Read.avoids_of_ok rfl
  exact {
    root := Read.avoids_pure _
    rootKey := Read.avoids_pure _
    node := fun _ => Read.avoids_pure _
    contains := fun _ => Read.avoids_pure _
    parent := fun key => ofSlot key (·.parent)
    children := fun key => ofSlot key (·.children.toList) }

end Store

end VersionedTrees
