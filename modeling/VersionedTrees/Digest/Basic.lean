import VersionedTrees.Bytes
import VersionedTrees.Digest.Blake3
import VersionedTrees.Key.Basic

/-!
# Digests

A digest stands for a sequence of bytes. Besides the digest itself this module fixes how numbers and
keys are written as bytes to be digested. Each number has a fixed width, and each key starts with a
tag and carries its length, so that a sequence of encodings can be read in one way only.
-/

namespace VersionedTrees

/-- The 32 bytes that stand for a sequence of bytes. -/
structure Digest where
  bytes : List UInt8
  length_bytes : bytes.length = 32
deriving DecidableEq

namespace Digest

/-- The digest of a sequence of bytes. -/
def of (bytes : List UInt8) : Digest :=
  ⟨Blake3.hash bytes, Blake3.length_hash bytes⟩

instance : Ord Digest where
  compare left right := compare left.bytes right.bytes

end Digest

instance : Std.TransOrd Digest :=
  inferInstanceAs (Std.TransCmp (compareOn Digest.bytes))

instance : Std.LawfulEqOrd Digest where
  eq_of_compare {left right} same := by
    have equal : left.bytes = right.bytes := Std.LawfulEqOrd.compare_eq_iff_eq.mp same
    rcases left with ⟨bytes, length⟩
    rcases right with ⟨bytes', length'⟩
    cases equal
    rfl

/-- A key as bytes: a tag, and then the components behind their count, a number, or a text behind
its length. -/
def Key.bytes : Key → List UInt8
  | .path position =>
    0 :: littleEndian 8 position.components.length ++
      position.components.flatMap fun component => littleEndian 4 component.toUInt32.toNat
  | .number value => 1 :: littleEndian 8 value.toNat
  | .text value => 2 :: littleEndian 8 (textBytes value).length ++ textBytes value

end VersionedTrees
