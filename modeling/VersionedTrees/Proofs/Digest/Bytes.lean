import Mathlib.Data.List.Basic
import VersionedTrees.Digest.Table

/-!
# Bytes that are digested can be read in one way

A key as bytes can be told apart from every other key, whatever follows, as long as its length fits
into the number that is written in front of it (`Key.bytes_append_injective`). Digests have a fixed
length, so that the bytes of a subtree digest tell the digest of the content, the keys of the children
and the digests of the children (`subtreeBytes_injective`). Main statement: `digestedBytes_tell`.
-/

namespace VersionedTrees

/-- Numbers that fit into their bytes can be told apart. -/
theorem littleEndian_injective {width left right : Nat} (fits : left < byteCapacity width)
    (fits' : right < byteCapacity width)
    (same : littleEndian width left = littleEndian width right) : left = right := by
  have reversed : bigEndian width left = bigEndian width right := congrArg List.reverse same
  rw [← ofBigEndian_bigEndian fits, reversed, ofBigEndian_bigEndian fits']

/-- Values of a fixed width can be told apart one by one, whatever follows. -/
theorem flatMap_append_injective {α : Type} {bytes : α → List UInt8} {width : Nat}
    (wide : ∀ value, (bytes value).length = width)
    (injective : ∀ left right, bytes left = bytes right → left = right)
    {left right : List α} {rest rest' : List UInt8} (lengths : left.length = right.length)
    (same : left.flatMap bytes ++ rest = right.flatMap bytes ++ rest') :
    left = right ∧ rest = rest' := by
  induction left generalizing right with
  | nil =>
      obtain rfl := List.eq_nil_of_length_eq_zero lengths.symm
      exact ⟨rfl, same⟩
  | cons first left inductionHypothesis =>
      cases right with
      | nil => cases lengths
      | cons second right =>
          rw [List.flatMap_cons, List.flatMap_cons, List.append_assoc, List.append_assoc] at same
          obtain ⟨head, tail⟩ := List.append_inj same ((wide first).trans (wide second).symm)
          obtain ⟨rfl, rfl⟩ := inductionHypothesis (Nat.succ.inj lengths) tail
          rw [injective first second head]
          exact ⟨rfl, rfl⟩

namespace Key

/-- The length of a key fits into the eight bytes for it. -/
def Fits : Key → Prop
  | .path position => position.components.length < byteCapacity 8
  | .number _ => True
  | .text value => (textBytes value).length < byteCapacity 8

example : byteCapacity 8 = 2 ^ 64 := by decide

instance (key : Key) : Decidable key.Fits :=
  match key with
  | .path position => inferInstanceAs (Decidable (position.components.length < byteCapacity 8))
  | .number _ => .isTrue trivial
  | .text value => inferInstanceAs (Decidable ((textBytes value).length < byteCapacity 8))

/-- Components can be told apart by their bytes. -/
theorem componentBytes_injective (left right : Int32)
    (same : littleEndian 4 left.toUInt32.toNat = littleEndian 4 right.toUInt32.toNat) :
    left = right := by
  have fits : ∀ component : Int32, component.toUInt32.toNat < byteCapacity 4 :=
    fun component => component.toUInt32.toNat_lt
  have words := UInt32.toNat.inj (littleEndian_injective (fits left) (fits right) same)
  cases left
  cases right
  cases words
  rfl

/-- Keys can be told apart by their bytes, whatever follows. -/
theorem bytes_append_injective {left right : Key} {rest rest' : List UInt8} (fits : left.Fits)
    (fits' : right.Fits) (same : left.bytes ++ rest = right.bytes ++ rest') :
    left = right ∧ rest = rest' := by
  cases left with
  | path position =>
      cases right with
      | path position' =>
          simp only [bytes, List.cons_append, List.cons.injEq, true_and, List.append_assoc] at same
          obtain ⟨lengths, same⟩ := List.append_inj same (by simp)
          obtain ⟨components, rfl⟩ := flatMap_append_injective (fun _ => length_littleEndian 4 _)
            componentBytes_injective (littleEndian_injective fits fits' lengths) same
          obtain ⟨components⟩ := position
          obtain ⟨components'⟩ := position'
          cases components
          exact ⟨rfl, rfl⟩
      | number value => simp [bytes] at same
      | text value => simp [bytes] at same
  | number value =>
      cases right with
      | path position => simp [bytes] at same
      | number value' =>
          simp only [bytes, List.cons_append, List.cons.injEq, true_and] at same
          obtain ⟨words, rfl⟩ := List.append_inj same (by simp)
          have values := littleEndian_injective value.toNat_lt value'.toNat_lt words
          rw [UInt64.toNat.inj values]
          exact ⟨rfl, rfl⟩
      | text value => simp [bytes] at same
  | text value =>
      cases right with
      | path position => simp [bytes] at same
      | number value => simp [bytes] at same
      | text value' =>
          simp only [bytes, List.cons_append, List.cons.injEq, true_and, List.append_assoc] at same
          obtain ⟨lengths, same⟩ := List.append_inj same (by simp)
          obtain ⟨texts, rfl⟩ :=
            List.append_inj same (littleEndian_injective fits fits' lengths)
          rw [textBytes_injective texts]
          exact ⟨rfl, rfl⟩

/-- No key is written without bytes. -/
theorem bytes_ne_nil (key : Key) : key.bytes ≠ [] := by
  cases key <;> simp [bytes]

end Key

theorem Digest.bytes_injective {left right : Digest} (same : left.bytes = right.bytes) :
    left = right := by
  cases left
  cases right
  cases same
  rfl

/-- The bytes of children tell the keys and the digests of the children. -/
theorem childBytes_injective {left right : List (Key × Digest)}
    (fits : ∀ child ∈ left, child.1.Fits) (fits' : ∀ child ∈ right, child.1.Fits)
    (same : (left.flatMap fun child => child.1.bytes ++ child.2.bytes) =
      right.flatMap fun child => child.1.bytes ++ child.2.bytes) : left = right := by
  induction left generalizing right with
  | nil =>
      cases right with
      | nil => rfl
      | cons second right => simp [second.1.bytes_ne_nil] at same
  | cons first left inductionHypothesis =>
      cases right with
      | nil => simp [first.1.bytes_ne_nil] at same
      | cons second right =>
          simp only [List.flatMap_cons, List.append_assoc] at same
          obtain ⟨keys, same⟩ := Key.bytes_append_injective (fits first List.mem_cons_self)
            (fits' second List.mem_cons_self) same
          obtain ⟨digests, same⟩ := List.append_inj same
            (first.2.length_bytes.trans second.2.length_bytes.symm)
          rw [Prod.ext keys (Digest.bytes_injective digests), inductionHypothesis
            (fun child inside => fits child (List.mem_cons_of_mem _ inside))
            (fun child inside => fits' child (List.mem_cons_of_mem _ inside)) same]

/-- The bytes of a subtree digest tell what it is made of. -/
theorem subtreeBytes_injective {content content' : Digest} {children children' : List (Key × Digest)}
    (fits : ∀ child ∈ children, child.1.Fits) (fits' : ∀ child ∈ children', child.1.Fits)
    (same : subtreeBytes content children = subtreeBytes content' children') :
    content = content' ∧ children = children' := by
  obtain ⟨contents, below⟩ :=
    List.append_inj same (content.length_bytes.trans content'.length_bytes.symm)
  exact ⟨Digest.bytes_injective contents, childBytes_injective fits fits' below⟩

/-- Whatever follows the bytes of a key, they tell the key and where they end. The bytes of a subtree digest
tell the digest of the content and, one after the other, the keys of the children with their digests. -/
theorem digestedBytes_tell {left right : Key} {rest rest' : List UInt8} {content content' : Digest}
    {children children' : List (Key × Digest)} (fits : left.Fits) (fits' : right.Fits)
    (childrenFit : ∀ child ∈ children, child.1.Fits) (childrenFit' : ∀ child ∈ children', child.1.Fits) :
    (left.bytes ++ rest = right.bytes ++ rest' ↔ left = right ∧ rest = rest') ∧
      (subtreeBytes content children = subtreeBytes content' children' ↔
        content = content' ∧ children = children') := by
  refine ⟨⟨Key.bytes_append_injective fits fits', ?_⟩, ⟨subtreeBytes_injective childrenFit childrenFit', ?_⟩⟩
  · rintro ⟨rfl, rfl⟩
    rfl
  · rintro ⟨rfl, rfl⟩
    rfl

/-- A position of one component, and a number with the bytes of that component behind it; and children whose
keys are the same text cut in two places. -/
theorem digestedBytes_tell_cut :
    let digest : Digest := ⟨List.replicate 32 7, by decide⟩
    let position : Key := .path ⟨[5]⟩
    let component : List UInt8 := [5, 0, 0, 0]
    let children : List (Key × Digest) := [(.text "ab", digest), (.text "c", digest)]
    let children' : List (Key × Digest) := [(.text "a", digest), (.text "bc", digest)]
    position.Fits ∧ (Key.number 1).Fits ∧ (∀ child ∈ children, child.1.Fits) ∧
      (∀ child ∈ children', child.1.Fits) ∧
      (position.bytes ++ [] = (Key.number 1).bytes ++ component ↔ position = .number 1 ∧ [] = component) ∧
      (subtreeBytes digest children = subtreeBytes digest children' ↔
        digest = digest ∧ children = children') := by
  intro digest position component children children'
  have fits : position.Fits := by decide
  have fits' : (Key.number 1).Fits := trivial
  have childrenFit : ∀ child ∈ children, child.1.Fits := by decide +kernel
  have childrenFit' : ∀ child ∈ children', child.1.Fits := by decide +kernel
  exact ⟨fits, fits', childrenFit, childrenFit', digestedBytes_tell fits fits' childrenFit childrenFit'⟩

end VersionedTrees
