import VersionedTrees.Donors.Expansion
import VersionedTrees.Donors.Normalized

/-!
# Deltas

A delta is a tree, made mostly of references into a base tree, together with the identifier of that
base. `Delta.between` computes the delta from a base to a target, `Delta.verify` checks that the
references of a delta point into a given base, and `Delta.reconstruct` gives the explicit tree that
a delta stands for.
-/

namespace VersionedTrees

/-- A tree of references into a base. -/
structure Delta (C : Type) where
  base : TreeId
  tree : Store C

namespace Delta

variable {C : Type}

/-- A normal form as a delta. -/
def ofNormalized (base : TreeId) (normalized : Normalized C) : Delta C :=
  ⟨base, normalized.tree⟩

/-- Fails unless a tree is the base of the delta. -/
def requireBase (delta : Delta C) (base : Tree C) : Read Unit :=
  Read.require (base.id = delta.base) (.delta (.notForBase delta.base base.id))

/-- Fails unless a reference points at a node of the base. -/
def verifyReference (delta : Delta C) (base : Tree C) (key : Key) (reference : Reference) :
    Read Unit := do
  Read.require (reference.tree = delta.base) (.delta (.leavesBase key reference delta.base))
  Read.require (← base.contains reference.key) (.nodeNotFound reference.key)

/-- The keys of the delta that hold references, with the references, in key order. -/
def references (delta : Delta C) : List (Key × Reference) :=
  delta.tree.entries.filterMap fun entry => entry.2.reference?.map (entry.1, ·)

/-- Fails unless a tree is the base of the delta and every reference points at one of its nodes. -/
def verify (delta : Delta C) (base : Tree C) : Read Unit := do
  delta.requireBase base
  delta.references.forM fun entry => delta.verifyReference base entry.1 entry.2
  Read.report (.verifiedDelta delta.base delta.references.length)

/-- The delta with its references replaced by what they stand for. -/
def expand (delta : Delta C) (base : Tree C) : Read (Store C) := do
  delta.requireBase base
  (Donors.mk [base]).expand delta.tree.tree

/-- The explicit tree that a verified delta stands for. -/
def reconstruct (delta : Delta C) (base : Tree C) : Read (Store C) := do
  delta.verify base
  delta.expand base

/-- The delta that turns a base into a target. -/
def between [Content C] (target base : Tree C) : Read (Delta C) := do
  let donors : Donors C := ⟨[base]⟩
  let index ← DonorIndex.build donors
  let normalized ← Normalized.ofTree index donors target
  Read.report
    (.computedDelta base.id target.id normalized.tree.size normalized.references.size)
  return ofNormalized base.id normalized

end Delta

end VersionedTrees
