import VersionedTrees.Store.Edit

/-!
# What the edits of a store do to its slots

A store is seen through `Store.slot?`. For each edit there is one equation that says what it does to
the slot of every key, and the other parts of the store are read off directly. Main statements:
`slot?_putSlot`, `slot?_changeSlot`, `slot?_detach`, `slot?_attach` and `slot?_clear`, and
`contains_eq_isSome_slot?`, which says that a key is in the store exactly when it has a slot.
-/

namespace VersionedTrees

namespace Store

variable {C : Type}

@[simp] theorem slot?_empty (id : TreeId) (supply : KeySupply) (key : Key) :
    (empty id supply : Store C).slot? key = none := by
  simp [slot?, empty]

/-- A key is in a store exactly when it has a slot. -/
theorem contains_eq_isSome_slot? (store : Store C) (key : Key) :
    store.contains key = (store.slot? key).isSome := by
  simp [contains, slot?]

/-- Setting a slot changes that slot alone. -/
theorem slot?_putSlot (store : Store C) (key : Key) (slot : Slot C) (other : Key) :
    (store.putSlot key slot).slot? other =
      if key = other then some slot else store.slot? other := by
  simp [slot?, putSlot, Std.TreeMap.getElem?_insert]

/-- Changing a slot changes that slot alone, and only if it is there. -/
theorem slot?_changeSlot (store : Store C) (key : Key) (change : Slot C → Slot C) (other : Key) :
    (store.changeSlot key change).slot? other =
      if key = other then (store.slot? other).map change else store.slot? other := by
  by_cases same : key = other
  · subst same
    simp [slot?, changeSlot]
  · simp [slot?, changeSlot, Std.TreeMap.getElem?_modify, same]

/-- Detaching a key changes the children of its parent alone. -/
theorem slot?_detach (store : Store C) (parent key other : Key) :
    (store.detach parent key).slot? other =
      if parent = other then
        (store.slot? other).map fun slot => { slot with children := slot.children.erase key }
      else
        store.slot? other :=
  slot?_changeSlot store parent _ other

/-- Attaching a key changes the children of its parent alone. -/
theorem slot?_attach (store : Store C) (parent key other : Key) :
    (store.attach parent key).slot? other =
      if parent = other then
        (store.slot? other).map fun slot => { slot with children := slot.children.insert key }
      else
        store.slot? other :=
  slot?_changeSlot store parent _ other

@[simp] theorem slot?_advance (store : Store C) (key : Key) :
    store.advance.slot? key = store.slot? key := rfl

@[simp] theorem slot?_clear (store : Store C) (key : Key) : store.clear.slot? key = none := by
  simp [slot?, clear, advance]

@[simp] theorem root_putSlot (store : Store C) (key : Key) (slot : Slot C) :
    (store.putSlot key slot).root = store.root := rfl

@[simp] theorem root_changeSlot (store : Store C) (key : Key) (change : Slot C → Slot C) :
    (store.changeSlot key change).root = store.root := rfl

@[simp] theorem root_advance (store : Store C) : store.advance.root = store.root := rfl

@[simp] theorem root_clear (store : Store C) : store.clear.root = none := rfl

@[simp] theorem generation_putSlot (store : Store C) (key : Key) (slot : Slot C) :
    (store.putSlot key slot).generation = store.generation := rfl

@[simp] theorem generation_changeSlot (store : Store C) (key : Key) (change : Slot C → Slot C) :
    (store.changeSlot key change).generation = store.generation := rfl

@[simp] theorem generation_advance (store : Store C) :
    store.advance.generation = store.generation + 1 := rfl

end Store

end VersionedTrees
