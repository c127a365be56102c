/-!
# Three-way merges

Two sides start from a common value and may each change it. The merge takes the change of the side
that changed it, takes a change that both made, and leaves two different changes as a conflict.
-/

namespace VersionedTrees

/-- What two sides make of a common value. -/
inductive Merge (α : Type) where
  /-- Neither side changed the value. -/
  | unchanged
  /-- The value of the side that changed it, or of both. -/
  | value (merged : α)
  /-- The sides changed the value in different ways. -/
  | conflict (ours theirs : α)
deriving DecidableEq

namespace Merge

variable {α : Type}

/-- Merges the values of two sides that start from a base. -/
def threeWay [DecidableEq α] (base ours theirs : α) : Merge α :=
  if ours = base then
    if theirs = base then .unchanged else .value theirs
  else if theirs = base then .value ours
  else if ours = theirs then .value ours
  else .conflict ours theirs

/-- Whether the sides disagree. -/
def isConflict : Merge α → Bool
  | .conflict _ _ => true
  | .unchanged | .value _ => false

/-- The merged value; a conflict has none. -/
def result? (base : α) : Merge α → Option α
  | .unchanged => some base
  | .value merged => some merged
  | .conflict _ _ => none

/-- A merge has a value unless the sides disagree. -/
@[simp] theorem isSome_result? (base : α) (merge : Merge α) :
    (merge.result? base).isSome = !merge.isConflict := by
  cases merge <;> rfl

/-- Sides that make the same of a value merge to it. -/
theorem result?_threeWay_self [DecidableEq α] (base ours : α) :
    (threeWay base ours ours).result? base = some ours := by
  by_cases same : ours = base <;> simp [threeWay, result?, same]

end Merge

end VersionedTrees
