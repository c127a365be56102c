import Std.Data.TreeMap
import VersionedTrees.Key.Basic

/-!
# Key maps

A view may show the nodes of a backing tree under other keys. A key map relates the keys of the
front to those of the back; it is either the identity or a pairing, a finite table in which each key
has at most one partner on the other side.
-/

namespace VersionedTrees

/-- A finite one-to-one table of front keys and back keys, kept in both directions. -/
structure Pairing where
  backOf : Std.TreeMap Key Key := ∅
  frontOf : Std.TreeMap Key Key := ∅

namespace Pairing

/-- The table without pairs. -/
def empty : Pairing := {}

/-- The number of pairs. -/
def size (pairing : Pairing) : Nat :=
  pairing.backOf.size

/-- The back key that a front key is paired with. -/
def back? (pairing : Pairing) (front : Key) : Option Key :=
  pairing.backOf[front]?

/-- The front key that a back key is paired with. -/
def front? (pairing : Pairing) (back : Key) : Option Key :=
  pairing.frontOf[back]?

/-- Drops the pair of a front key, if it has one. -/
def eraseFront (pairing : Pairing) (front : Key) : Pairing :=
  match pairing.back? front with
  | none => pairing
  | some back => ⟨pairing.backOf.erase front, pairing.frontOf.erase back⟩

/-- Drops the pair of a back key, if it has one. -/
def eraseBack (pairing : Pairing) (back : Key) : Pairing :=
  match pairing.front? back with
  | none => pairing
  | some front => ⟨pairing.backOf.erase front, pairing.frontOf.erase back⟩

/-- Drops the pair of a front key and tells the back key of that pair, if there is one. -/
def removeFront (pairing : Pairing) (front : Key) : Option Key × Pairing :=
  (pairing.back? front, pairing.eraseFront front)

/-- Drops the pair of a back key and tells the front key of that pair, if there is one. -/
def removeBack (pairing : Pairing) (back : Key) : Option Key × Pairing :=
  (pairing.front? back, pairing.eraseBack back)

/-- Pairs two keys. Every earlier pair of either of them is dropped. -/
def insert (pairing : Pairing) (front back : Key) : Pairing :=
  let free := (pairing.eraseFront front).eraseBack back
  ⟨free.backOf.insert front back, free.frontOf.insert back front⟩

/-- The table that results from inserting pairs in order. -/
def ofPairs (pairs : List (Key × Key)) : Pairing :=
  pairs.foldl (fun pairing pair => pairing.insert pair.1 pair.2) empty

@[simp] theorem back?_empty (front : Key) : empty.back? front = none := by
  simp [empty, back?]

@[simp] theorem front?_empty (back : Key) : empty.front? back = none := by
  simp [empty, front?]

@[simp] theorem back?_insert_self (pairing : Pairing) (front back : Key) :
    (pairing.insert front back).back? front = some back := by
  simp [insert, back?]

@[simp] theorem front?_insert_self (pairing : Pairing) (front back : Key) :
    (pairing.insert front back).front? back = some front := by
  simp [insert, front?]

end Pairing

/-- A relation between front keys and back keys, followed in both directions. -/
inductive KeyMap where
  /-- Both sides use the same keys. -/
  | identity
  /-- The keys of a table have their partners, all others have none. -/
  | paired (pairing : Pairing)

namespace KeyMap

/-- The front key that shows a back key. -/
def front? : KeyMap → Key → Option Key
  | .identity, back => some back
  | .paired pairing, back => pairing.front? back

/-- The back key that a front key stands for. -/
def back? : KeyMap → Key → Option Key
  | .identity, front => some front
  | .paired pairing, front => pairing.back? front

end KeyMap

end VersionedTrees
