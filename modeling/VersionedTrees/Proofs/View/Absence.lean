import VersionedTrees.Buffer.Basic
import VersionedTrees.Proofs.Key.Pairing
import VersionedTrees.Proofs.Store.Reachable
import VersionedTrees.Proofs.View.Trapped

/-!
# How absent keys are refused

A tree that is asked for the parent or the children of a key which it does not contain is to refuse,
for want of that key. Stores and merged views do so. A renamed view hands both questions on under the
back key and hands the refusal back as it is, so that the key which is named is the one at which the
question ends (`View.origin`). It also takes for absent what has no node, while a merged view with a
trap contains keys whose content cannot be read; there nothing is refused at all.
`View.absence_named_by_origin` tells these cases apart for every view.
-/

namespace VersionedTrees

variable {C α : Type}

namespace Tree

/-- A tree refuses the parent and the children of a key for want of a key that it names. -/
def TellsAbsence (tree : Tree C) (key named : Key) : Prop :=
  (tree.parent key).result = .error (.nodeNotFound named) ∧
    (tree.children key).result = .error (.nodeNotFound named)

variable {tree : Tree C} {key named : Key}

/-- The key that is named is one only. -/
theorem TellsAbsence.iff_eq (tells : tree.TellsAbsence key key) :
    tree.TellsAbsence key named ↔ named = key := by
  constructor
  · rintro ⟨refused, -⟩
    cases tells.1.symm.trans refused
    rfl
  · rintro rfl
    exact tells

end Tree

namespace View

/-- The view that answers a question about a key, and the key that it is asked for. A renamed view
hands the question on if the key has a back key. -/
def origin : View C → Key → View C × Key
  | .store held, key => (.store held, key)
  | .renamed inner keys, key =>
    match keys.back? key with
    | none => (.renamed inner keys, key)
    | some back => inner.origin back
  | .merged front back keys hidden settings trap, key =>
    (.merged front back keys hidden settings trap, key)

/-- No merged view of which a view is made has a trap. -/
def Untrapped : View C → Prop
  | .store _ => True
  | .renamed inner _ => inner.Untrapped
  | .merged front back _ _ _ trap => trap = none ∧ front.Untrapped ∧ back.Untrapped

end View

/-! ## Where a question ends -/

namespace Tree

variable {inner : Tree C} {keys : KeyMap} {key back : Key} {error : TreeError}

/-- A renamed view fails for the parent of a key as its tree does for the back key. -/
theorem parent_renamed_fails_iff (paired : keys.back? key = some back) :
    ((inner.renamed keys).parent key).result = .error error ↔
      (inner.parent back).result = .error error := by
  have asked : (renamed.backKey keys key).result = .ok back :=
    Read.result_orFail_eq_ok_iff.mpr paired
  have handed : ((inner.renamed keys).parent key).result =
      (inner.parent back >>= fun above => pure (above.bind keys.front?)).result :=
    Read.result_bind_of_ok asked
  rw [handed, Read.result_bind_pure_eq_error_iff]

theorem children_renamed_fails_iff (paired : keys.back? key = some back) :
    ((inner.renamed keys).children key).result = .error error ↔
      (inner.children back).result = .error error := by
  have asked : (renamed.backKey keys key).result = .ok back :=
    Read.result_orFail_eq_ok_iff.mpr paired
  have handed : ((inner.renamed keys).children key).result =
      (inner.children back >>= fun below => pure (below.filterMap keys.front?)).result :=
    Read.result_bind_of_ok asked
  rw [handed, Read.result_bind_pure_eq_error_iff]

/-- A renamed view contains the keys that it has a node for. -/
theorem contains_renamed_eq_false_iff :
    ((inner.renamed keys).contains key).result = .ok false ↔
      ((inner.renamed keys).node key).result = .ok none := by
  constructor
  · intro absent
    obtain ⟨node, found, absent⟩ := Read.result_bind_eq_ok absent
    have nothing : node.isSome = false := Except.ok.inj absent
    rw [Option.isSome_eq_false_iff, Option.isNone_iff_eq_none] at nothing
    exact found.trans (congrArg Except.ok nothing)
  · exact fun missing => Read.result_bind_of_ok missing

/-- A renamed view that has no node for a key has none for the back key in its tree. -/
theorem node_renamed_eq_none (paired : keys.back? key = some back)
    (missing : ((inner.renamed keys).node key).result = .ok none) :
    (inner.node back).result = .ok none := by
  change (renamed.node inner keys key).result = _ at missing
  rw [renamed.node, paired] at missing
  obtain ⟨node, found, missing⟩ := Read.result_bind_eq_ok missing
  have nothing : node = none := Option.map_eq_none_iff.mp (Except.ok.inj missing)
  rw [found, nothing]

end Tree

namespace View

theorem origin_renamed_of_none {inner : View C} {keys : KeyMap} {key : Key}
    (unpaired : keys.back? key = none) :
    (renamed inner keys).origin key = (renamed inner keys, key) := by
  rw [origin, unpaired]

theorem origin_renamed_of_some {inner : View C} {keys : KeyMap} {key back : Key}
    (paired : keys.back? key = some back) :
    (renamed inner keys).origin key = inner.origin back := by
  rw [origin, paired]

/-- A view fails for the parent of a key as the view does at which the question ends. -/
theorem parent_fails_iff (view : View C) (key : Key) (error : TreeError) :
    (view.tree.parent key).result = .error error ↔
      ((view.origin key).1.tree.parent (view.origin key).2).result = .error error := by
  induction view generalizing key with
  | store held => rfl
  | merged front back keys hidden settings trap => rfl
  | renamed inner keys inductionHypothesis =>
      cases paired : keys.back? key with
      | none => rw [origin_renamed_of_none paired]
      | some back =>
          rw [origin_renamed_of_some paired, ← inductionHypothesis back]
          exact Tree.parent_renamed_fails_iff paired

theorem children_fails_iff (view : View C) (key : Key) (error : TreeError) :
    (view.tree.children key).result = .error error ↔
      ((view.origin key).1.tree.children (view.origin key).2).result = .error error := by
  induction view generalizing key with
  | store held => rfl
  | merged front back keys hidden settings trap => rfl
  | renamed inner keys inductionHypothesis =>
      cases paired : keys.back? key with
      | none => rw [origin_renamed_of_none paired]
      | some back =>
          rw [origin_renamed_of_some paired, ← inductionHypothesis back]
          exact Tree.children_renamed_fails_iff paired

end View

/-! ## Keys that are not contained -/

theorem Store.tellsAbsence {store : Store C} {key : Key}
    (absent : (store.tree.contains key).result = .ok false) : store.tree.TellsAbsence key key := by
  have missing : store.slot? key = none := by
    have absent : store.contains key = false := Except.ok.inj absent
    rwa [Store.contains_eq_false_iff, Store.layout_eq_none_iff] at absent
  have refused : store.slot key = .error (.nodeNotFound key) := by rw [Store.slot, missing]
  constructor
  · change (store.slot key).map _ = _
    rw [refused]
    rfl
  · change (store.slot key).map _ = _
    rw [refused]
    rfl

/-- A renamed view refuses a key without a back key. -/
theorem Tree.tellsAbsence_renamed {inner : Tree C} {keys : KeyMap} {key : Key}
    (unpaired : keys.back? key = none) : (inner.renamed keys).TellsAbsence key key := by
  have refused : (renamed.backKey keys key).result = .error (.nodeNotFound key) := by
    rw [renamed.backKey, unpaired]
    rfl
  exact ⟨Read.result_bind_of_error refused, Read.result_bind_of_error refused⟩

/-- A merged view refuses a key that it has no handle for. -/
theorem Merged.tellsAbsence {view : Merged C} {key : Key}
    (absent : (view.tree.contains key).result = .ok false) : view.tree.TellsAbsence key key := by
  obtain ⟨handle, got, absent⟩ := Read.result_bind_eq_ok absent
  have nothing : handle.isSome = false := Except.ok.inj absent
  rw [Option.isSome_eq_false_iff, Option.isNone_iff_eq_none] at nothing
  subst nothing
  have refused : (view.require key).result = .error (.nodeNotFound key) :=
    Read.result_bind_of_ok got
  exact ⟨Read.result_bind_of_error refused, Read.result_bind_of_error refused⟩

/-! ## Keys that are contained -/

/-- A tree does not say of a key that it contains, nor when it looks for one, that a node is missing. -/
structure Tree.Truthful (tree : Tree C) : Prop where
  node : ∀ key, (tree.node key).Avoids .missingNode
  contains : ∀ key, (tree.contains key).Avoids .missingNode
  contains_of_node : ∀ {key found}, (tree.node key).result = .ok (some found) →
    (tree.contains key).result = .ok true
  node_of_contains : ∀ {key}, (tree.contains key).result = .ok true → (tree.node key).result ≠ .ok none
  parent : ∀ {key}, (tree.contains key).result = .ok true → (tree.parent key).Avoids .missingNode
  children : ∀ {key}, (tree.contains key).result = .ok true → (tree.children key).Avoids .missingNode

namespace Tree

variable {tree : Tree C} {keys : KeyMap} {key : Key}

theorem Truthful.payload (truthful : tree.Truthful)
    (contains : (tree.contains key).result = .ok true) : (tree.payload key).Avoids .missingNode := by
  refine (truthful.node key).bind fun found read => ?_
  cases found with
  | none => exact absurd read (truthful.node_of_contains contains)
  | some found => exact Read.avoids_pure _

/-- What a renamed view contains its tree contains under the back key. -/
theorem Truthful.contains_of_renamed (truthful : tree.Truthful)
    (contains : ((tree.renamed keys).contains key).result = .ok true) :
    ∃ back, keys.back? key = some back ∧ (tree.contains back).result = .ok true := by
  obtain ⟨found, read, shown⟩ := Read.result_bind_eq_ok contains
  have shown : found.isSome = true := Except.ok.inj shown
  change (renamed.node tree keys key).result = _ at read
  rw [renamed.node] at read
  cases paired : keys.back? key with
  | none =>
      rw [paired] at read
      cases read
      cases shown
  | some back =>
      rw [paired] at read
      obtain ⟨node, read, same⟩ := Read.result_bind_eq_ok read
      have same : node.map (fun node => ⟨key, node.payload⟩) = found := Except.ok.inj same
      rw [← same, Option.isSome_map, Option.isSome_iff_exists] at shown
      obtain ⟨node, rfl⟩ := shown
      exact ⟨back, rfl, truthful.contains_of_node read⟩

theorem Truthful.renamed (truthful : tree.Truthful) (keys : KeyMap) :
    (tree.renamed keys).Truthful := by
  have node : ∀ key, ((tree.renamed keys).node key).Avoids .missingNode := by
    intro key
    change (renamed.node tree keys key).Avoids .missingNode
    rw [renamed.node]
    cases keys.back? key with
    | none => exact Read.avoids_pure _
    | some back => exact (truthful.node back).bind fun _ _ => Read.avoids_pure _
  exact {
    node
    contains := fun key => (node key).bind fun _ _ => Read.avoids_pure _
    contains_of_node := fun read => Read.result_bind_of_ok read
    node_of_contains := fun contains missing =>
      nomatch contains.symm.trans (contains_renamed_eq_false_iff.mpr missing)
    parent := fun contains error failed => by
      obtain ⟨back, paired, contains⟩ := truthful.contains_of_renamed contains
      exact truthful.parent contains error ((parent_renamed_fails_iff paired).mp failed)
    children := fun contains error failed => by
      obtain ⟨back, paired, contains⟩ := truthful.contains_of_renamed contains
      exact truthful.children contains error ((children_renamed_fails_iff paired).mp failed) }

end Tree

theorem Store.truthful (store : Store C) : store.tree.Truthful := by
  have ofSlot : ∀ {γ : Type} {key : Key} (part : Slot C → γ),
      (store.tree.contains key).result = .ok true →
      (Read.ofExcept ((store.slot key).map part)).Avoids .missingNode := by
    intro γ key part contains
    have contains : store.contains key = true := Except.ok.inj contains
    rw [contains_eq_isSome_slot?, Option.isSome_iff_exists] at contains
    obtain ⟨slot, found⟩ := contains
    rw [Store.slot, found]
    exact Read.avoids_of_ok rfl
  have node_isSome : ∀ key, (store.node? key).isSome = store.contains key := fun key => by
    rw [node?, payload?, Option.isSome_map, Option.isSome_map, contains_eq_isSome_slot?]
  exact {
    node := fun _ => Read.avoids_pure _
    contains := fun _ => Read.avoids_pure _
    contains_of_node := fun {key found} read => by
      have read : store.node? key = some found := Except.ok.inj read
      refine congrArg Except.ok ((node_isSome key).symm.trans ?_)
      rw [read]
      rfl
    node_of_contains := fun {key} contains missing => by
      have contains : store.contains key = true := Except.ok.inj contains
      have missing : store.node? key = none := Except.ok.inj missing
      rw [← node_isSome, missing] at contains
      cases contains
    parent := fun contains => ofSlot (·.parent) contains
    children := fun contains => ofSlot (·.children.toList) contains }

namespace Merged

variable {view : Merged C} {key : Key} {side : Side} {handle : Handle}

/-- The tree that a node is read from contains the key that it has there. -/
def Sources (view : Merged C) (key : Key) : Side → Prop
  | .front => (view.front.contains key).result = .ok true
  | .back back => (view.back.contains back).result = .ok true

/-- A trap takes failures away, and adds none. -/
theorem avoids_trapped {kind : ErrorKind} {read : Read (Option α)} (avoids : read.Avoids kind) :
    (view.trapped read).Avoids kind := by
  rw [trapped]
  split
  · exact Read.avoids_pure _
  · exact avoids

theorem contains_of_backingTarget {reference : Reference} {target : Key}
    (ok : (view.backingTarget reference).result = .ok target) :
    (view.back.contains target).result = .ok true := by
  obtain ⟨⟨⟩, -, ok⟩ := Read.result_bind_eq_ok ok
  obtain ⟨there, contains, ok⟩ := Read.result_bind_eq_ok ok
  obtain ⟨⟨⟩, required, ok⟩ := Read.result_bind_eq_ok ok
  cases ok
  rw [contains, Read.result_require_eq_ok required]

/-- A handle is of the key that was asked for, and of a side that the key is located on. -/
theorem located_of_get (ok : (view.get key).result = .ok (some handle)) :
    ∃ side, handle = view.handle key side ∧ (view.locate key).result = .ok (some side) := by
  obtain ⟨located, read, ok⟩ := Read.result_bind_eq_ok ok
  obtain ⟨side, rfl, same⟩ := Option.map_eq_some_iff.mp (Except.ok.inj ok)
  exact ⟨side, same.symm, result_of_trapped read⟩

/-- What is not resolved is not what is missing. -/
theorem unresolved_found (α : Type) (reference : Reference) :
    (Read.fail (.unresolved reference) : Read α).Avoids .missingNode :=
  Read.avoids_of_error rfl nofun

section Truthful

variable (front : view.front.Truthful) (back : view.back.Truthful)

include front

theorem sources_of_locate (ok : (view.locate key).result = .ok (some side)) :
    view.Sources key side := by
  obtain ⟨node, read, ok⟩ := Read.result_bind_eq_ok ok
  cases node with
  | some node =>
      have contains := front.contains_of_node read
      cases payload : node.payload with
      | content value | nodeReference reference =>
          simp only [payload] at ok
          cases ok
          exact contains
      | treeReference reference =>
          simp only [payload] at ok
          obtain ⟨target, followed, ok⟩ := Read.result_bind_eq_ok ok
          cases ok
          exact contains_of_backingTarget followed
  | none =>
      cases paired : view.keys.back? key with
      | none =>
          simp only [paired] at ok
          cases ok
      | some other =>
          simp only [paired] at ok
          split at ok
          · cases ok
          · obtain ⟨there, contains, ok⟩ := Read.result_bind_eq_ok ok
            cases there with
            | false => cases ok
            | true =>
                cases ok
                exact contains

include back

theorem found_locate (key : Key) : (view.trapped (view.locate key)).Avoids .missingNode :=
  avoids_trapped ((Read.composes_avoids _).locate unresolved_found back.contains (front.node key))

theorem found_get (key : Key) : (view.get key).Avoids .missingNode :=
  (Read.composes_avoids _).get (found_locate front back key)

theorem found_content (sources : view.Sources key side) :
    (view.content (view.handle key side)).Avoids .missingNode := by
  refine (Read.avoids_of_ok (view.result_check key side)).bind fun _ _ => avoids_trapped ?_
  cases side with
  | front =>
      exact (Read.composes_avoids _).frontContent unresolved_found back.contains
        (front.payload sources) back.node
  | back other => exact (Read.composes_avoids _).backContent unresolved_found (back.payload sources)

theorem found_parentOf (sources : view.Sources key side) :
    (view.parentOf (view.handle key side)).Avoids .missingNode := by
  have above : (view.parentKey (view.handle key side)).Avoids .missingNode := by
    cases side with
    | front => exact front.parent sources
    | back other =>
        have kind : (view.isFrontTreeReference key).Avoids .missingNode :=
          (front.node key).bind fun _ _ => Read.avoids_pure _
        refine kind.bind fun isReference read => ?_
        cases isReference with
        | false => exact (back.parent sources).bind fun _ _ => Read.avoids_pure _
        | true =>
            -- the front is asked only for a key that it has a node for
            obtain ⟨node, read, same⟩ := Read.result_bind_eq_ok read
            cases node with
            | none => cases same
            | some node => exact front.parent (front.contains_of_node read)
  refine (Read.avoids_of_ok (view.result_check key side)).bind fun _ _ => above.bind fun parent _ => ?_
  cases parent with
  | none => exact Read.avoids_pure _
  | some parent => exact found_get front back parent

theorem found_childrenOf (sources : view.Sources key side) :
    (view.childrenOf (view.handle key side)).Avoids .missingNode := by
  refine (Read.avoids_of_ok (view.result_check key side)).bind fun _ _ => ?_
  cases side with
  | front =>
      exact (front.children sources).bind fun keys _ =>
        (Read.composes_avoids _).frontChildren (found_locate front back) keys
  | back other => exact (back.children sources).bind fun _ _ => Read.avoids_pure _

/-- Over such trees nothing is reported as missing for a key that a view contains, with or without a
trap. -/
theorem found_of_contains (contains : (view.tree.contains key).result = .ok true) :
    (view.tree.parent key).Avoids .missingNode ∧ (view.tree.children key).Avoids .missingNode := by
  obtain ⟨found, got, shown⟩ := Read.result_bind_eq_ok contains
  have shown : found.isSome = true := Except.ok.inj shown
  obtain ⟨handle, rfl⟩ := Option.isSome_iff_exists.mp shown
  obtain ⟨side, rfl, located⟩ := located_of_get got
  have sources := sources_of_locate front located
  have required := result_require located
  constructor
  · refine (Read.avoids_of_ok required).bind fun handle ok => ?_
    cases required.symm.trans ok
    exact (found_parentOf front back sources).bind fun _ _ => Read.avoids_pure _
  · refine (Read.avoids_of_ok required).bind fun handle ok => ?_
    cases required.symm.trans ok
    exact (found_childrenOf front back sources).bind fun _ _ => Read.avoids_pure _

end Truthful

/-- Only a trap makes content absent. -/
theorem content_ne_none (untrapped : view.trap = none) (handle : Handle) :
    (view.content handle).result ≠ .ok none := by
  intro absent
  obtain ⟨⟨⟩, -, absent⟩ := Read.result_bind_eq_ok absent
  rw [trapped_of_none untrapped] at absent
  cases side : handle.side with
  | front =>
      simp only [side] at absent
      obtain ⟨payload, -, absent⟩ := Read.result_bind_eq_ok absent
      cases payload with
      | content value => cases absent
      | nodeReference reference | treeReference reference =>
          obtain ⟨target, -, absent⟩ := Read.result_bind_eq_ok absent
          obtain ⟨node, -, absent⟩ := Read.result_bind_eq_ok absent
          split at absent <;> cases absent
  | back key =>
      simp only [side] at absent
      obtain ⟨payload, -, absent⟩ := Read.result_bind_eq_ok absent
      cases payload with
      | content value => cases absent
      | nodeReference reference | treeReference reference => cases absent

/-- A view without a trap has a node for every key that it contains. -/
theorem node_ne_none (untrapped : view.trap = none)
    (contains : (view.tree.contains key).result = .ok true) :
    (view.tree.node key).result ≠ .ok none := by
  intro missing
  obtain ⟨found, got, shown⟩ := Read.result_bind_eq_ok contains
  have shown : found.isSome = true := Except.ok.inj shown
  obtain ⟨handle, rfl⟩ := Option.isSome_iff_exists.mp shown
  have read : (view.materialize handle).result = .ok none :=
    (Read.result_bind_of_ok got).symm.trans missing
  obtain ⟨content, told, read⟩ := Read.result_bind_eq_ok read
  have nothing : content = none := Option.map_eq_none_iff.mp (Except.ok.inj read)
  exact content_ne_none untrapped handle (told.trans (congrArg Except.ok nothing))

/-- A merged view without a trap is as truthful as the trees that it is made of. -/
theorem truthful (front : view.front.Truthful) (back : view.back.Truthful)
    (untrapped : view.trap = none) : view.tree.Truthful where
  node key := by
    refine (found_get front back key).bind fun found got => ?_
    cases found with
    | none => exact Read.avoids_pure _
    | some handle =>
        obtain ⟨side, rfl, located⟩ := located_of_get got
        exact (found_content front back (sources_of_locate front located)).bind
          fun _ _ => Read.avoids_pure _
  contains key := (found_get front back key).bind fun _ _ => Read.avoids_pure _
  contains_of_node := by
    intro key node read
    obtain ⟨found, got, read⟩ := Read.result_bind_eq_ok read
    cases found with
    | none => cases read
    | some handle => exact Read.result_bind_of_ok got
  node_of_contains contains := node_ne_none untrapped contains
  parent contains := (found_of_contains front back contains).1
  children contains := (found_of_contains front back contains).2

end Merged

/-! ## All views -/

namespace View

theorem Untrapped.truthful {view : View C} (untrapped : view.Untrapped) : view.tree.Truthful := by
  induction view with
  | store held => exact held.truthful
  | renamed inner keys inductionHypothesis => exact (inductionHypothesis untrapped).renamed keys
  | merged front back keys hidden settings trap frontHypothesis backHypothesis =>
      obtain ⟨none, front, back⟩ := untrapped
      exact Merged.truthful (frontHypothesis front) (backHypothesis back) none

/-- A view is a merged view with a trap. -/
def Trapped (view : View C) : Prop :=
  ∃ front back keys hidden settings trap, view = .merged front back keys hidden settings (some trap)

/-- A view that does not have a node either refuses the key at the end of the question, or is a trapped
view there that contains the key. -/
theorem origin_of_missing (view : View C) (key : Key)
    (missing : (view.tree.node key).result = .ok none) :
    (((view.origin key).1.tree.contains (view.origin key).2).result = .ok false ∧
      (view.origin key).1.tree.TellsAbsence (view.origin key).2 (view.origin key).2) ∨
    (((view.origin key).1.tree.contains (view.origin key).2).result = .ok true ∧
      (view.origin key).1.Trapped) := by
  induction view generalizing key with
  | store held =>
      have absent : (held.tree.contains key).result = .ok false := by
        have missing : held.node? key = none := Except.ok.inj missing
        rw [Store.node?, Store.payload?, Option.map_eq_none_iff, Option.map_eq_none_iff] at missing
        change Except.ok (held.contains key) = _
        rw [Store.contains_eq_isSome_slot?, missing]
        rfl
      exact .inl ⟨absent, Store.tellsAbsence absent⟩
  | renamed inner keys inductionHypothesis =>
      cases paired : keys.back? key with
      | none =>
          rw [origin_renamed_of_none paired]
          exact .inl ⟨Tree.contains_renamed_eq_false_iff.mpr missing, Tree.tellsAbsence_renamed paired⟩
      | some back =>
          rw [origin_renamed_of_some paired]
          exact inductionHypothesis back (Tree.node_renamed_eq_none paired missing)
  | merged front back keys hidden settings trap =>
      obtain ⟨found, got, read⟩ := Read.result_bind_eq_ok missing
      have told : ((Merged.mk front.tree back.tree keys hidden settings trap).tree.contains key).result =
          .ok found.isSome := Read.result_bind_of_ok got
      cases found with
      | none => exact .inl ⟨told, Merged.tellsAbsence told⟩
      | some handle =>
          refine .inr ⟨told, ?_⟩
          cases trap with
          | none => exact absurd missing (Merged.node_ne_none rfl told)
          | some trap => exact ⟨front, back, keys, hidden, settings, trap, rfl⟩

/-- The same for a key that a view does not contain. -/
theorem origin_of_absent (view : View C) (key : Key)
    (absent : (view.tree.contains key).result = .ok false) :
    (((view.origin key).1.tree.contains (view.origin key).2).result = .ok false ∧
      (view.origin key).1.tree.TellsAbsence (view.origin key).2 (view.origin key).2) ∨
    (((view.origin key).1.tree.contains (view.origin key).2).result = .ok true ∧
      (view.origin key).1.Trapped) := by
  cases view with
  | store held => exact .inl ⟨absent, Store.tellsAbsence absent⟩
  | renamed inner keys =>
      exact origin_of_missing _ key (Tree.contains_renamed_eq_false_iff.mp absent)
  | merged front back keys hidden settings trap => exact .inl ⟨absent, Merged.tellsAbsence absent⟩

/-- Stores, merged views of any two trees, and buffers refuse a key that they do not contain for want of
that key. Of views in general this holds of the view at which the question ends. If that view does not
contain the key which it is asked for, the parent and the children are refused for want of that key
and of no other. Otherwise it is a merged view with a trap; unless there are traps below that one too,
neither is refused for want of any key. -/
theorem absence_named_by_origin :
    (∀ (store : Store C) (key : Key), (store.tree.contains key).result = .ok false →
      store.tree.TellsAbsence key key) ∧
    (∀ (view : Merged C) (key : Key), (view.tree.contains key).result = .ok false →
      view.tree.TellsAbsence key key) ∧
    (∀ (buffer : Buffer C) (key : Key), (buffer.tree.contains key).result = .ok false →
      buffer.tree.TellsAbsence key key) ∧
    ∀ (view : View C) (key : Key), (view.tree.contains key).result = .ok false →
      let origin := (view.origin key).1
      let name := (view.origin key).2
      ((origin.tree.contains name).result = .ok false ∧
        ∀ named, view.tree.TellsAbsence key named ↔ named = name) ∨
      ((origin.tree.contains name).result = .ok true ∧
        ∃ front back keys hidden settings trap,
          origin = .merged front back keys hidden settings (some trap) ∧
          (front.Untrapped → back.Untrapped → (view.tree.parent key).Avoids .missingNode ∧
            (view.tree.children key).Avoids .missingNode)) := by
  refine ⟨fun _ _ => Store.tellsAbsence, fun _ _ => Merged.tellsAbsence,
    fun _ _ => Merged.tellsAbsence, fun view key absent => ?_⟩
  intro origin name
  rcases view.origin_of_absent key absent with ⟨absent, tells⟩ | ⟨contains, trapped⟩
  · refine .inl ⟨absent, fun named => ?_⟩
    rw [← tells.iff_eq, Tree.TellsAbsence, Tree.TellsAbsence, parent_fails_iff, children_fails_iff]
  · obtain ⟨front, back, keys, hidden, settings, trap, same⟩ := trapped
    refine .inr ⟨contains, front, back, keys, hidden, settings, trap, same,
      fun frontUntrapped backUntrapped => ?_⟩
    rw [same] at contains
    let merged := Merged.mk front.tree back.tree keys hidden settings (some trap)
    have contains : (merged.tree.contains name).result = .ok true := contains
    obtain ⟨parent, children⟩ :=
      Merged.found_of_contains frontUntrapped.truthful backUntrapped.truthful contains
    constructor
    · intro error failed
      rw [parent_fails_iff, same] at failed
      exact parent error failed
    · intro error failed
      rw [children_fails_iff, same] at failed
      exact children error failed

/-- Front keys for the root of a chain, and for a key that is not in it. -/
def partialPairs : Pairing :=
  .ofPairs [(.text "r", .number 1), (.text "f", .number 9)]

/-- A key that stands for no node of the chain is refused under the name that it has there. -/
theorem absence_named_by_origin_chain :
    let view := View.renamed (.store Store.chain) (.paired partialPairs)
    (view.tree.contains (.text "f")).result = .ok false ∧
      ∀ named, view.tree.TellsAbsence (.text "f") named ↔ named = .number 9 := by
  intro view
  have absent : (view.tree.contains (.text "f")).result = .ok false := by decide +kernel
  have ends : view.origin (.text "f") = (.store Store.chain, .number 9) :=
    origin_renamed_of_some (by decide +kernel)
  refine ⟨absent, ?_⟩
  obtain ⟨-, -, -, named⟩ := absence_named_by_origin (C := String)
  rcases named view (.text "f") absent with ⟨-, tells⟩ | ⟨contains, -⟩
  · rwa [ends] at tells
  · rw [ends] at contains
    have missing : (Store.chain.tree.contains (.number 9)).result = .ok false := by decide +kernel
    cases missing.symm.trans contains

/-- The key that is refused is not always the one that was asked for. Over a trap, a renamed view does not
contain a node without content, and tells its parent and its children all the same. -/
theorem absence_misnamed :
    let view := View.renamed (.store Store.chain) (.paired partialPairs)
    let front := Store.ofEdits ⟨5⟩ Merged.danglingEdits
    let trapped := View.renamed (.merged (.store front) (.store Store.chain) .identity ∅ {} (some .log))
      .identity
    Store.chain.Reachable ∧ front.Reachable ∧ partialPairs.Reachable ∧
      (view.tree.contains (.text "f")).result = .ok false ∧
      ¬ view.tree.TellsAbsence (.text "f") (.text "f") ∧
      (trapped.tree.contains (.number 4)).result = .ok false ∧
      (trapped.tree.parent (.number 4)).result = .ok (some (.number 1)) ∧
      (trapped.tree.children (.number 4)).result = .ok [] := by
  intro view front trapped
  refine ⟨Store.reachable_ofEdits ⟨1⟩ Store.chainEdits, Store.reachable_ofEdits ⟨5⟩ Merged.danglingEdits,
    .ofPairs _, by decide +kernel, ?_, by decide +kernel⟩
  rintro ⟨refused, -⟩
  have named : (view.tree.parent (.text "f")).result = .error (.nodeNotFound (.number 9)) := by
    decide +kernel
  cases named.symm.trans refused

end View

end VersionedTrees
