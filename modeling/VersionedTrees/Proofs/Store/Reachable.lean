import VersionedTrees.Proofs.Effect
import VersionedTrees.Proofs.Store.Edits
import VersionedTrees.Tree.Editable

/-!
# Reachable stores

`Store.Reachable` are the stores that edits lead to from an empty one, whether the edits succeed or
fail. All of them are well-formed, so that every read of a reachable store is answered by its layout.
-/

namespace VersionedTrees

/-- The edits of a store. To set the root and to append are insertions. -/
inductive StoreEdit (C : Type) where
  | insert (parent : Option Key) (placement : Placement) (payload : Payload C)
  | update (key : Key) (payload : Payload C)
  | delete (key : Key)
  | clear

namespace StoreEdit

variable {C : Type}

/-- Carries an edit out. An insertion tells a key. -/
def edit : StoreEdit C → Edit (Store C) (Option Key)
  | .insert parent placement payload => some <$> Editable.insert parent placement payload
  | .update key payload => (fun _ => none) <$> Editable.update key payload
  | .delete key => (fun _ => none) <$> Editable.delete key
  | .clear => (fun _ => none) <$> Edit.modify Store.clear

end StoreEdit

namespace Store

variable {C : Type} {store : Store C} {parent key : Key} {payload : Payload C}

/-- The stores that edits lead to. -/
inductive Reachable : Store C → Prop where
  | empty (id : TreeId) (supply : KeySupply) : Reachable (Store.empty id supply)
  | step {store : Store C} (reachable : Reachable store) (edit : StoreEdit C) :
      Reachable (edit.edit.effect store).2

/-- The fresh keys have no part in the shape of a store. -/
theorem WellFormed.withSupply (wellFormed : store.WellFormed) (supply : KeySupply) :
    ({ store with supply } : Store C).WellFormed :=
  ⟨wellFormed.isTree, wellFormed.root, wellFormed.children⟩

/-- A node that is put below a parent stands there. -/
theorem WellFormed.becomes_of_putBelow {next : Store C} (wellFormed : store.WellFormed)
    (holds : store.layout.Holds parent) (ok : store.putBelow parent key payload = .ok next) :
    store.Becomes (store.layout.place key ⟨some parent, payload⟩) next := by
  by_cases new : store.layout key = none
  · obtain ⟨after, ok', becomes⟩ := wellFormed.putBelow_of_new holds new payload
    rwa [Except.ok.inj (ok.symm.trans ok')]
  · rcases (Layout.holds_iff_ne_none.mpr new).isRoot_or_isChild with isRoot | ⟨previous, isChild⟩
    · rw [putBelow_of_root isRoot] at ok
      cases ok
    · by_cases within : store.layout.Within key parent
      · rw [wellFormed.putBelow_of_within isChild within] at ok
        cases ok
      · obtain ⟨after, ok', becomes⟩ :=
          wellFormed.putBelow_of_outside isChild holds within payload
        rwa [Except.ok.inj (ok.symm.trans ok')]

/-- A node that is put at the root stands there. -/
theorem WellFormed.becomes_of_putRoot {next : Store C} (wellFormed : store.WellFormed)
    (ok : store.putRoot key payload = .ok next) :
    store.Becomes (store.layout.place key ⟨none, payload⟩) next := by
  cases root : store.root with
  | none =>
      obtain ⟨after, ok', becomes⟩ := wellFormed.putRoot_of_empty root key payload
      rwa [Except.ok.inj (ok.symm.trans ok')]
  | some other =>
      have isRoot := (wellFormed.root other).mp root
      by_cases same : other = key
      · subst same
        obtain ⟨after, ok', becomes⟩ := wellFormed.putRoot_of_root isRoot payload
        rwa [Except.ok.inj (ok.symm.trans ok')]
      · rw [wellFormed.putRoot_of_other isRoot same] at ok
        cases ok

/-- An update that succeeds is one of a node that is there. -/
theorem WellFormed.becomes_of_update {next : Store C} (wellFormed : store.WellFormed)
    (ok : store.update key payload = .ok next) :
    ∃ standing, store.layout key = some standing ∧
      store.Becomes (store.layout.place key ⟨standing.parent, payload⟩) next := by
  cases found : store.layout key with
  | none =>
      rw [update_of_absent found] at ok
      cases ok
  | some standing =>
      obtain ⟨after, ok', becomes⟩ := wellFormed.update found payload
      obtain rfl := Except.ok.inj (ok.symm.trans ok')
      exact ⟨standing, rfl, becomes⟩

/-- A deletion that succeeds takes everything below the key out. -/
theorem WellFormed.becomes_of_delete {next : Store C} (wellFormed : store.WellFormed)
    (ok : store.delete key = .ok next) : store.Becomes (store.layout.prune key) next := by
  cases found : store.layout key with
  | none =>
      rw [delete_of_absent found] at ok
      cases ok
  | some standing =>
      obtain ⟨after, ok', becomes⟩ := wellFormed.delete ⟨_, found⟩
      rwa [Except.ok.inj (ok.symm.trans ok')]

/-- After an insertion that succeeds, the node stands below its parent under the key that was
told. -/
theorem WellFormed.insert_eq_ok {above : Option Key} {placement : Placement} {next : Store C}
    (wellFormed : store.WellFormed)
    (ok : store.insert above placement payload = (.ok key, next)) :
    next.WellFormed ∧ next.layout = store.layout.place key ⟨above, payload⟩ := by
  cases above with
  | none =>
      obtain ⟨-, put⟩ := put_of_insert_root ok
      have becomes := wellFormed.becomes_of_putRoot put
      exact ⟨becomes.wellFormed, becomes.layout_eq⟩
  | some parent =>
      obtain ⟨holds, supply, -, put⟩ := chosen_of_insert ok
      have becomes := (wellFormed.withSupply supply).becomes_of_putBelow holds put
      exact ⟨becomes.wellFormed, becomes.layout_eq⟩

/-- Below a parent with a position, the key that is chosen for a new node is a new one. -/
theorem absent_of_insert_automatic {position : PathKey} {place : Place} {next : Store C}
    (positioned : parent.position? = some position)
    (ok : store.insert (some parent) (.automatic place) payload = (.ok key, next)) :
    store.layout key = none := by
  obtain ⟨-, supply, chosen, -⟩ := chosen_of_insert ok
  rw [allocate, positioned] at chosen
  dsimp only at chosen
  rw [choosePosition] at chosen
  cases free : freePosition parent position (store.siblings parent position) place with
  | error _ =>
      rw [free] at chosen
      cases chosen
  | ok new =>
      rw [free] at chosen
      change Except.map _ (if store.contains (.path new) then _ else _) = _ at chosen
      by_cases taken : store.contains (.path new) = true
      · rw [if_pos taken] at chosen
        cases chosen
      · rw [if_neg taken] at chosen
        cases chosen
        exact contains_eq_false_iff.mp (eq_false_of_ne_true taken)

/-- An insertion leaves a well-formed store, however it ends. -/
theorem WellFormed.keeps_insert (wellFormed : store.WellFormed) (parent : Option Key)
    (placement : Placement) (payload : Payload C) :
    (store.insert parent placement payload).2.WellFormed := by
  cases parent with
  | none =>
      rw [Store.insert]
      cases ok : store.putRoot placement.rootKey payload with
      | error _ => exact wellFormed
      | ok next => exact (wellFormed.becomes_of_putRoot ok).wellFormed
  | some parent =>
      rw [Store.insert]
      by_cases holds : store.contains parent = true
      · simp only [holds, if_true]
        cases store.allocate parent placement with
        | error _ => exact wellFormed
        | ok chosen =>
            obtain ⟨key, supply⟩ := chosen
            simp only
            cases ok : ({ store with supply } : Store C).putBelow parent key payload with
            | error _ => exact wellFormed.withSupply supply
            | ok next =>
                exact ((wellFormed.withSupply supply).becomes_of_putBelow
                  (contains_iff_holds.mp holds) ok).wellFormed
      · simp only [holds]
        exact wellFormed

theorem WellFormed.keeps_update (wellFormed : store.WellFormed) {next : Store C}
    (ok : store.update key payload = .ok next) : next.WellFormed := by
  obtain ⟨_, -, becomes⟩ := wellFormed.becomes_of_update ok
  exact becomes.wellFormed

theorem WellFormed.keeps_delete (wellFormed : store.WellFormed) {next : Store C}
    (ok : store.delete key = .ok next) : next.WellFormed :=
  (wellFormed.becomes_of_delete ok).wellFormed

/-- Every edit leaves a well-formed store, however it ends. -/
theorem WellFormed.keeps_edit (wellFormed : store.WellFormed) (edit : StoreEdit C) :
    (edit.edit.effect store).2.WellFormed := by
  cases edit with
  | insert parent placement payload =>
      rw [StoreEdit.edit, Edit.effect_map]
      exact wellFormed.keeps_insert parent placement payload
  | update key payload =>
      rw [StoreEdit.edit, Edit.effect_map]
      change (Edit.effect (Edit.attempt (·.update key payload)) store).2.WellFormed
      rw [Edit.effect_attempt]
      cases ok : store.update key payload with
      | error _ => exact wellFormed
      | ok next => exact wellFormed.keeps_update ok
  | delete key =>
      rw [StoreEdit.edit, Edit.effect_map]
      change (Edit.effect (Edit.attempt (·.delete key)) store).2.WellFormed
      rw [Edit.effect_attempt]
      cases ok : store.delete key with
      | error _ => exact wellFormed
      | ok next => exact wellFormed.keeps_delete ok
  | clear => exact (becomes_clear store).wellFormed

/-- Whatever edits lead to is well-formed. -/
theorem Reachable.wellFormed (reachable : store.Reachable) : store.WellFormed := by
  induction reachable with
  | empty id supply => exact wellFormed_empty id supply
  | step _ edit inductionHypothesis => exact inductionHypothesis.keeps_edit edit

/-- The store that a list of edits leads to. -/
def ofEdits (id : TreeId) (edits : List (StoreEdit C)) : Store C :=
  edits.foldl (fun store edit => (edit.edit.effect store).2) (Store.empty id)

theorem Reachable.foldl (reachable : store.Reachable) (edits : List (StoreEdit C)) :
    (edits.foldl (fun store edit => (edit.edit.effect store).2) store).Reachable := by
  induction edits generalizing store with
  | nil => exact reachable
  | cons edit edits inductionHypothesis => exact inductionHypothesis (.step reachable edit)

theorem reachable_ofEdits (id : TreeId) (edits : List (StoreEdit C)) :
    (ofEdits id edits).Reachable :=
  Reachable.foldl (.empty id _) edits

/-- Insertions of a root, of a child, and of a child of that. -/
def chainEdits : List (StoreEdit String) :=
  [.insert none (.exactly (.number 1)) (.content "root"),
    .insert (some (.number 1)) (.exactly (.number 2)) (.content "middle"),
    .insert (some (.number 2)) (.exactly (.number 3)) (.content "leaf")]

/-- A root with a child that has a child. -/
def chain : Store String :=
  ofEdits ⟨1⟩ chainEdits

theorem allContent_chain : chain.AllContent :=
  allContent_iff_entries.mpr (by decide +kernel)

end Store

end VersionedTrees
