import VersionedTrees.Proofs.Store.Reachable

/-!
# Nodes that are added

An insertion that leaves the key to the store is to add one node and to change nothing else
(`Store.Adds`). Below a parent with a position it always does. Below an opaque parent the key is the next
number of the supply, and the supply does not know which numbers callers have used: the insertion adds a
node exactly when nothing stands under that number (`Store.adds_insert_automatic_iff`).
-/

namespace VersionedTrees

namespace Store

variable {C : Type} {store next : Store C} {parent key : Key} {payload : Payload C} {place : Place}

/-- A store has one node more than before: the key is new and has no children, its parent has got it as a
child, and nothing else has changed. -/
structure Adds (store : Store C) (parent key : Key) (payload : Payload C) (next : Store C) : Prop where
  absent : store.contains key = false
  size_eq : next.size = store.size + 1
  root_eq : next.root = store.root
  added : next.slot? key = some ⟨payload, some parent, ∅⟩
  attached : ∃ slot, store.slot? parent = some slot ∧
    next.slot? parent = some { slot with children := slot.children.insert key }
  others : ∀ other, other ≠ key → other ≠ parent → next.slot? other = store.slot? other

/-- What stood in a store still stands there after a node is added. -/
theorem Adds.layout_eq {other : Key} {standing : Standing C} (adds : store.Adds parent key payload next)
    (found : store.layout other = some standing) : next.layout other = some standing := by
  by_cases isKey : other = key
  · rw [isKey, contains_eq_false_iff.mp adds.absent] at found
    cases found
  · by_cases isParent : other = parent
    · obtain ⟨slot, before, after⟩ := adds.attached
      rw [isParent] at found ⊢
      rw [layout_of_slot? after]
      exact (layout_of_slot? before).symm.trans found
    · rw [layout, adds.others other isKey isParent]
      exact found

/-- The keys after a node is added are those before and its own. -/
theorem Adds.holds_iff {other : Key} (adds : store.Adds parent key payload next) :
    next.layout.Holds other ↔ other = key ∨ store.layout.Holds other := by
  constructor
  · intro holds
    by_cases isKey : other = key
    · exact .inl isKey
    · refine .inr (holds_layout_iff.mpr ?_)
      by_cases isParent : other = parent
      · obtain ⟨slot, before, -⟩ := adds.attached
        exact ⟨slot, isParent ▸ before⟩
      · rw [← adds.others other isKey isParent]
        exact holds_layout_iff.mp holds
  · rintro (rfl | ⟨standing, found⟩)
    · exact ⟨_, layout_of_slot? adds.added⟩
    · exact ⟨standing, adds.layout_eq found⟩

theorem size_putSlot_of_absent (absent : store.contains key = false) (slot : Slot C) :
    (store.putSlot key slot).size = store.size + 1 := by
  change (store.slots.insert key slot).size = store.slots.size + 1
  rw [Std.TreeMap.size_insert, if_neg]
  exact ne_true_of_eq_false absent

/-- To put a new node below a parent is to add it. -/
theorem adds_of_putBelow (absent : store.contains key = false) (holds : store.layout.Holds parent)
    (ok : store.putBelow parent key payload = .ok next) : store.Adds parent key payload next := by
  have nothing : store.slot? key = none := layout_eq_none_iff.mp (contains_eq_false_iff.mp absent)
  have different : parent ≠ key := by
    rintro rfl
    exact Layout.not_holds_iff.mpr (contains_eq_false_iff.mp absent) holds
  rw [putBelow, nothing] at ok
  obtain rfl := Except.ok.inj ok
  obtain ⟨slot, found⟩ := holds_layout_iff.mp holds
  refine ⟨absent, ?_, rfl, ?_, ⟨slot, found, ?_⟩, fun other notKey notParent => ?_⟩
  · change ((store.putSlot key _).slots.modify parent _).size = _
    rw [Std.TreeMap.size_modify]
    exact size_putSlot_of_absent absent _
  · rw [slot?_advance, slot?_attach, if_neg different, slot?_putSlot, if_pos rfl]
  · rw [slot?_advance, slot?_attach, if_pos rfl, slot?_putSlot, if_neg different.symm, found]
    rfl
  · rw [slot?_advance, slot?_attach, if_neg notParent.symm, slot?_putSlot, if_neg notKey.symm]

/-- An insertion that leaves the key to the store adds a node exactly when the key is new. -/
theorem adds_iff_absent (ok : store.insert (some parent) (.automatic place) payload = (.ok key, next)) :
    store.Adds parent key payload next ↔ store.contains key = false := by
  refine ⟨Adds.absent, fun absent => ?_⟩
  obtain ⟨holds, supply, -, put⟩ := chosen_of_insert ok
  -- the supply has no part in what stands in a store
  have adds : ({ store with supply } : Store C).Adds parent key payload next :=
    adds_of_putBelow absent holds put
  exact ⟨absent, adds.size_eq, adds.root_eq, adds.added, adds.attached, adds.others⟩

/-- A supply gives out its next number. -/
theorem eq_number_of_freshKey {supply : KeySupply} (drawn : store.freshKey = .ok (key, supply)) :
    key = .number store.supply.next := by
  rw [freshKey, KeySupply.take?] at drawn
  by_cases left : store.supply.next.toNat + 1 < UInt64.size
  · rw [if_pos left] at drawn
    cases drawn
    rfl
  · rw [if_neg left] at drawn
    cases drawn

/-- An insertion that leaves the key to the store adds one node and changes nothing else, below a parent
with a position always, and below an opaque parent exactly when the next number of the supply is not the
key of a node already. -/
theorem adds_insert_automatic_iff
    (ok : store.insert (some parent) (.automatic place) payload = (.ok key, next)) :
    store.Adds parent key payload next ↔
      (parent.position? = none → store.contains (.number store.supply.next) = false) := by
  rw [adds_iff_absent ok]
  cases positioned : parent.position? with
  | some position =>
      have absent := absent_of_insert_automatic positioned ok
      exact iff_of_true (contains_eq_false_iff.mpr absent) nofun
  | none =>
      obtain ⟨-, supply, chosen, -⟩ := chosen_of_insert ok
      rw [allocate, positioned] at chosen
      rw [eq_number_of_freshKey chosen]
      exact ⟨fun absent _ => absent, fun absent => absent rfl⟩

/-- A root without a position, a node below it, and below that a node under the first number that a supply
gives out. -/
def shelved : Store String :=
  .ofEdits ⟨1⟩ [.insert none (.exactly (.text "root")) (.content "root"),
    .insert (some (.text "root")) (.exactly (.text "shelf")) (.content "shelf"),
    .insert (some (.text "shelf")) (.exactly (.number 0)) (.content "book")]

/-- Below a root without a position a node is added under the first number, which is free. -/
theorem adds_insert_automatic_iff_free :
    let store : Store String := .ofEdits ⟨1⟩ [.insert none (.exactly (.text "root")) (.content "root"),
      .insert (some (.text "root")) (.exactly (.number 1)) (.content "other")]
    let ended := store.insert (some (.text "root")) (.automatic (.before (.number 1))) (.content "new")
    store.Reachable ∧ ended.1 = .ok (.number 0) ∧
      (store.Adds (.text "root") (.number 0) (.content "new") ended.2 ↔
        (Key.position? (.text "root") = none → store.contains (.number store.supply.next) = false)) ∧
      store.Adds (.text "root") (.number 0) (.content "new") ended.2 ∧
      ended.2.tree.keys.result = .ok [.text "root", .number 0, .number 1] := by
  intro store ended
  have told : ended.1 = .ok (.number 0) := by decide +kernel
  have ok : store.insert (some (.text "root")) (.automatic (.before (.number 1))) (.content "new") =
      (.ok (.number 0), ended.2) := Prod.ext told rfl
  have exactly := adds_insert_automatic_iff ok
  exact ⟨reachable_ofEdits _ _, told, exactly, exactly.mpr fun _ => by decide +kernel,
    by decide +kernel⟩

/-- A node that is added below the root of that tree takes the place of the one on the shelf. -/
theorem not_adds_of_shelved :
    let ended := shelved.insert (some (.text "root")) (.automatic .last) (.content "new")
    shelved.Reachable ∧ ended.1 = .ok (.number 0) ∧ shelved.contains (.number 0) = true ∧
      ended.2.size = shelved.size ∧ shelved.payload? (.number 0) = some (.content "book") ∧
      ended.2.payload? (.number 0) = some (.content "new") ∧
      shelved.tree.childList (.text "shelf") = [.number 0] ∧ ended.2.tree.childList (.text "shelf") = [] ∧
      ¬ shelved.Adds (.text "root") (.number 0) (.content "new") ended.2 := by
  intro ended
  have there : shelved.contains (.number 0) = true := by decide +kernel
  refine ⟨reachable_ofEdits _ _, by decide +kernel, there, by decide +kernel, by decide +kernel,
    by decide +kernel, by decide +kernel, by decide +kernel, fun adds => ?_⟩
  exact nomatch there.symm.trans adds.absent

end Store

end VersionedTrees
