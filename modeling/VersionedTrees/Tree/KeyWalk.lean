import VersionedTrees.Tree.Basic

/-!
# Walks that are taken key by key

A `KeyWalk` tells the keys of a tree in pre-order, one with each call, and reads no more of the tree than
the calls so far have asked for. It keeps the children that are still to come, of each key on the way down
to the last one. The children of a key are asked for when it is told; if they cannot be read the failure is
told in its place, and the walk ends. A walk that has ended tells nothing any more.
-/

namespace VersionedTrees

variable {C : Type}

/-- A walk that is under way. -/
structure KeyWalk where
  /-- The key that the walk starts at, until it is told. -/
  pending : Option Key
  started : Bool
  /-- The children that are still to come, those of the last key first. -/
  stack : List (List Key)
  done : Bool

namespace KeyWalk

/-- A walk from a key on, or from the root. -/
def start (first : Option Key) : KeyWalk :=
  ⟨first, first.isSome, [], false⟩

/-- A walk that goes on with the children that are still to come. -/
def descending (stack : List (List Key)) : KeyWalk :=
  ⟨none, true, stack, false⟩

/-- A walk that has come to its end. -/
def ended : KeyWalk :=
  ⟨none, true, [], true⟩

/-- The child that comes next, and those that come after it. Lists of which nothing is left are taken
off. -/
def nextChild : List (List Key) → Option (Key × List (List Key))
  | [] => none
  | [] :: stack => nextChild stack
  | (key :: rest) :: stack => some (key, rest :: stack)

/-- The key that comes next, and the walk without it. -/
def upcoming (tree : Tree C) (walk : KeyWalk) : Read (Option (Key × KeyWalk)) := do
  match walk.pending with
  | some key => return some (key, { walk with pending := none })
  | none =>
    if walk.started then
      return (nextChild walk.stack).map fun (key, stack) => (key, { walk with stack })
    else
      let root ← tree.rootKey
      return root.map fun key => (key, { walk with started := true })

/-- Tells the next key, or the failure that ends the walk, or nothing at the end. -/
def next (tree : Tree C) (walk : KeyWalk) : Read (Option (Except TreeError Key) × KeyWalk) := do
  if walk.done then
    return (none, walk)
  match ← (walk.upcoming tree).outcome with
  | .error error => return (some (.error error), ended)
  | .ok none => return (none, ended)
  | .ok (some (key, walk)) =>
    match ← (tree.children key).outcome with
    | .error error => return (some (.error error), ended)
    | .ok children => return (some (.ok key), { walk with stack := children :: walk.stack })

/-- The calls of a walk tell some items, one after the other, and then nothing. -/
inductive Tells (tree : Tree C) : KeyWalk → List (Except TreeError Key) → Prop where
  | ended {walk : KeyWalk} (told : (walk.next tree).result = .ok (none, KeyWalk.ended)) :
      Tells tree walk []
  | item {walk after : KeyWalk} {item : Except TreeError Key} {items : List (Except TreeError Key)}
      (told : (walk.next tree).result = .ok (some item, after)) (rest : Tells tree after items) :
      Tells tree walk (item :: items)

end KeyWalk

end VersionedTrees
