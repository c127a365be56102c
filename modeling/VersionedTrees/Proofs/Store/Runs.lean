import Mathlib.Logic.Relation
import VersionedTrees.Proofs.Store.Reachable

/-!
# Runs of edits leave a single rooted tree

A store keeps its links twice, and an insertion may create, replace or move. Whatever calls it is
given, in whatever order and however each of them ends, it stays one tree: `Store.SingleRooted` says
so about the slots themselves. A call that fails leaves everything but the supply of fresh keys
alone, and one that succeeds counts as one edit (`Store.singleRooted_afterCalls`).
-/

namespace VersionedTrees

variable {C : Type}

/-- The calls that change a store: the edits, and two insertions of content with names of their
own. -/
inductive StoreCall (C : Type) where
  | plain (edit : StoreEdit C)
  | append (parent : Key) (content : C)
  | setRoot (content : C)

namespace StoreCall

/-- Carries a call out. An insertion tells a key. -/
def edited : StoreCall C → Edit (Store C) (Option Key)
  | .plain edit => edit.edit
  | .append parent content => some <$> Edit.ofFunction (·.append parent content)
  | .setRoot content => some <$> Edit.ofFunction (·.setRoot content)

/-- The edit that a call stands for. -/
def toEdit : StoreCall C → StoreEdit C
  | .plain edit => edit
  | .append parent content => .insert (some parent) (.automatic .last) (.content content)
  | .setRoot content => .insert none (.automatic .first) (.content content)

theorem edited_eq (call : StoreCall C) : call.edited = call.toEdit.edit := by
  cases call <;> rfl

end StoreCall

namespace Store

variable {store after : Store C} {key parent : Key} {payload : Payload C}

/-! ## What a call does to the count of edits -/

theorem generation_of_putRoot (ok : store.putRoot key payload = .ok after) :
    after.generation = store.generation + 1 := by
  rw [putRoot] at ok
  split at ok
  · split at ok
    · cases ok
    · cases ok
      rfl
  · split at ok
    · cases ok
      rfl
    · cases ok

theorem generation_of_putBelow (ok : store.putBelow parent key payload = .ok after) :
    after.generation = store.generation + 1 := by
  rw [putBelow] at ok
  split at ok
  · cases ok
    rfl
  · cases ok
  · split at ok
    · cases ok
    · cases ok
      rfl

theorem generation_of_delete {slot : Slot C} (found : store.slot? key = some slot) :
    ∃ after, store.delete key = .ok after ∧ after.generation = store.generation + 1 := by
  simp only [delete, Store.slot, found]
  refine ⟨_, rfl, ?_⟩
  cases slot.parent <;> rfl

/-- A call ends with one more edit, or with nothing changed but the supply of fresh keys. -/
inductive Ends {α : Type} (store : Store C) : Except TreeError α × Store C → Prop where
  | ok {value : α} {after : Store C} (counted : after.generation = store.generation + 1) :
    Ends store (.ok value, after)
  | error {error : TreeError} (supply : KeySupply) : Ends store (.error error, { store with supply })

theorem ends_insert (store : Store C) (above : Option Key) (placement : Placement)
    (payload : Payload C) : store.Ends (store.insert above placement payload) := by
  cases above with
  | none =>
      rw [insert_root]
      cases put : store.putRoot placement.rootKey payload with
      | error error => exact .error store.supply
      | ok next => exact .ok (generation_of_putRoot put)
  | some parent =>
      rw [Store.insert]
      by_cases there : store.contains parent = true
      case neg =>
        rw [if_neg there]
        exact .error store.supply
      case pos =>
        rw [if_pos there]
        cases store.allocate parent placement with
        | error error => exact .error store.supply
        | ok drawn =>
            obtain ⟨key, supply⟩ := drawn
            simp only
            cases put : ({ store with supply } : Store C).putBelow parent key payload with
            | error error => exact .error supply
            | ok next =>
                have counted := generation_of_putBelow put
                exact .ok counted

theorem ends_update (store : Store C) (key : Key) (payload : Payload C) :
    store.Ends ((Edit.attempt (·.update key payload)).effect store) := by
  rw [Edit.effect_attempt, update]
  by_cases there : store.contains key = true
  · rw [if_pos there]
    exact .ok rfl
  · rw [if_neg there]
    exact .error store.supply

theorem ends_delete (store : Store C) (key : Key) :
    store.Ends ((Edit.attempt (·.delete key)).effect store) := by
  rw [Edit.effect_attempt]
  cases found : store.slot? key with
  | none =>
      rw [delete_of_absent (layout_eq_none_iff.mpr found)]
      exact .error store.supply
  | some slot =>
      obtain ⟨next, deleted, counted⟩ := generation_of_delete found
      rw [deleted]
      exact .ok counted

/-- Every edit of every store ends with one more edit counted or with nothing changed. -/
theorem ends_edit (store : Store C) (edit : StoreEdit C) : store.Ends (edit.edit.effect store) := by
  -- what an edit tells has no part in how it ends
  have told : ∀ {α : Type} {value : α → Option Key} {ended : Except TreeError α × Store C},
      store.Ends ended → store.Ends (ended.1.map value, ended.2) := by
    intro α value ended ends
    cases ends with
    | ok counted => exact .ok counted
    | error supply => exact .error supply
  cases edit with
  | insert above placement payload =>
      rw [StoreEdit.edit, Edit.effect_map]
      exact told (store.ends_insert above placement payload)
  | update key payload =>
      rw [StoreEdit.edit, Edit.effect_map]
      exact told (store.ends_update key payload)
  | delete key =>
      rw [StoreEdit.edit, Edit.effect_map]
      exact told (store.ends_delete key)
  | clear => exact .ok rfl

/-! ## One rooted tree -/

/-- The slot of a key names a parent. -/
def NamesParent (store : Store C) (key parent : Key) : Prop :=
  ∃ slot, store.slot? key = some slot ∧ slot.parent = some parent

/-- The slots of a store are one tree with the root that is recorded, or there are none. -/
structure SingleRooted (store : Store C) : Prop where
  isEmpty_iff : store.isEmpty = true ↔ store.root = none
  root_stored : ∀ root, store.root = some root → store.contains root = true
  parent_eq_none_iff : ∀ key slot, store.slot? key = some slot →
    (slot.parent = none ↔ store.root = some key)
  parent_stored : ∀ key parent, store.NamesParent key parent → store.contains parent = true
  mem_children_iff : ∀ parent slot, store.slot? parent = some slot →
    ∀ key, key ∈ slot.children ↔ store.NamesParent key parent
  rooted : ∀ key, store.contains key = true →
    ∃ root, store.root = some root ∧ Relation.ReflTransGen store.NamesParent key root

theorem namesParent_iff : store.NamesParent key parent ↔ store.layout.IsChild key parent := by
  constructor
  · rintro ⟨⟨payload, _, children⟩, found, rfl⟩
    exact ⟨payload, layout_of_slot? found⟩
  · rintro ⟨payload, found⟩
    obtain ⟨slot, there, same⟩ := Option.map_eq_some_iff.mp found
    exact ⟨slot, there, congrArg Standing.parent same⟩

/-- The parents of a key lead up to the root. -/
theorem WellFormed.climbs (wellFormed : store.WellFormed) (holds : store.layout.Holds key) :
    ∃ root, store.root = some root ∧ Relation.ReflTransGen store.NamesParent key root := by
  refine wellFormed.isTree.induction key holds ?_ ?_
  · intro root isRoot
    exact ⟨root, (wellFormed.root root).mpr isRoot, .refl⟩
  · intro key parent isChild _ climbs
    obtain ⟨root, found, above⟩ := climbs
    exact ⟨root, found, .head (namesParent_iff.mpr isChild) above⟩

/-- The links of a well-formed store make one tree. -/
theorem WellFormed.singleRooted (wellFormed : store.WellFormed) : store.SingleRooted where
  isEmpty_iff := by
    rw [isEmpty_iff]
    constructor
    · intro empty
      cases found : store.root with
      | none => rfl
      | some root =>
          obtain ⟨payload, there⟩ := (wellFormed.root root).mp found
          exact nomatch (empty root).symm.trans there
    · exact fun none => wellFormed.layout_of_no_root none
  root_stored root found := contains_iff_holds.mpr ((wellFormed.root root).mp found).holds
  parent_eq_none_iff key slot found := by
    rw [wellFormed.root key, Layout.isRoot_iff, layout_of_slot? found]
    exact ⟨fun none => congrArg some none, Option.some.inj⟩
  parent_stored key parent named :=
    contains_iff_holds.mpr (wellFormed.isTree.parent_holds (namesParent_iff.mp named))
  mem_children_iff parent slot found key :=
    (wellFormed.children parent slot found key).trans namesParent_iff.symm
  rooted key there := wellFormed.climbs (contains_iff_holds.mp there)

/-! ## Runs -/

/-- The store that calls lead to, each of which may have failed. -/
def afterCalls (store : Store C) (calls : List (StoreCall C)) : Store C :=
  calls.foldl (fun store call => (call.edited.effect store).2) store

/-- The number of calls that succeed, one after the other. -/
def successes (store : Store C) : List (StoreCall C) → Nat
  | [] => 0
  | call :: calls =>
    (if (call.edited.effect store).1.isOk then 1 else 0) +
      (call.edited.effect store).2.successes calls

/-- The generation counts the calls that have succeeded. -/
theorem generation_afterCalls (store : Store C) (calls : List (StoreCall C)) :
    (store.afterCalls calls).generation = store.generation + store.successes calls := by
  induction calls generalizing store with
  | nil => rfl
  | cons call calls inductionHypothesis =>
      have ends := store.ends_edit call.toEdit
      rw [← call.edited_eq] at ends
      rw [successes, ← Nat.add_assoc]
      change ((call.edited.effect store).2.afterCalls calls).generation = _
      rw [inductionHypothesis, Nat.add_right_cancel_iff]
      generalize call.edited.effect store = ended at ends
      cases ends with
      | ok counted => exact counted
      | error supply => rfl

theorem Reachable.afterCalls (reachable : store.Reachable) (calls : List (StoreCall C)) :
    (store.afterCalls calls).Reachable := by
  induction calls generalizing store with
  | nil => exact reachable
  | cons call calls inductionHypothesis =>
      have next : (call.edited.effect store).2.Reachable := by
        rw [call.edited_eq]
        exact .step reachable call.toEdit
      exact inductionHypothesis next

/-- Calls on a new store, whether they succeed or fail, leave one rooted tree. Any further call that
fails changes nothing but the supply of fresh keys, and any that succeeds is counted. -/
theorem singleRooted_afterCalls (id : TreeId) (supply : KeySupply) (calls : List (StoreCall C)) :
    let store : Store C := (Store.empty id supply).afterCalls calls
    store.SingleRooted ∧ ∀ call : StoreCall C, store.Ends (call.edited.effect store) := by
  intro store
  have reachable : store.Reachable := Reachable.afterCalls (.empty id supply) calls
  refine ⟨reachable.wellFormed.singleRooted, fun call => ?_⟩
  rw [call.edited_eq]
  exact store.ends_edit call.toEdit

end Store

end VersionedTrees
