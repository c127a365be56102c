import VersionedTrees.Digest.Basic

/-!
# Content

The trees hold content of any type that can be compared and written as bytes. Content is digested as its
bytes, so that equal values have equal digests, and nothing more is asked of a type: where the bytes
leave a part of a value out, different values share a digest.

What rests on digests telling contents apart assumes so by name (`Content.Faithful`). Texts and
sequences of bytes are content that is written without loss.
-/

namespace VersionedTrees

/-- Types whose values nodes can hold. -/
class Content (C : Type) where
  decEq : DecidableEq C
  bytes : C → List UInt8

instance (priority := low) {C : Type} [Content C] : DecidableEq C := Content.decEq

/-- The digest of content. -/
def Content.digest {C : Type} [Content C] (value : C) : Digest :=
  Digest.of (Content.bytes value)

/-- Different values are written as different bytes. -/
def Content.Faithful (C : Type) [Content C] : Prop :=
  ∀ left right : C, Content.bytes left = Content.bytes right → left = right

instance : Content String where
  decEq := inferInstance
  bytes := textBytes

theorem Content.faithful_string : Content.Faithful String :=
  fun _ _ => textBytes_injective

instance : Content (List UInt8) where
  decEq := inferInstance
  bytes := id

theorem Content.faithful_bytes : Content.Faithful (List UInt8) :=
  fun _ _ => id

end VersionedTrees
