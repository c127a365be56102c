import VersionedTrees.Cbor.Head

/-!
# Data as bytes

Numbers, texts, arrays, records and alternatives are written with the shortest heads and with their
lengths in front. A record is a map from the names of its fields to their values. An alternative is
a map with one entry, which says by a name which alternative a value belongs to.
-/

namespace VersionedTrees.Cbor

/-- A number that is not negative. -/
def encodeNat (value : Nat) : List UInt8 :=
  head .unsigned value

/-- An integer. -/
def encodeInt : Int → List UInt8
  | .ofNat value => head .unsigned value
  | .negSucc value => head .negative value

/-- A text. -/
def encodeText (text : String) : List UInt8 :=
  head .text (textBytes text).length ++ textBytes text

/-- Nothing. -/
def encodeNull : List UInt8 :=
  head .simple 22

/-- Elements that are encoded already, as an array. -/
def encodeArray (elements : List (List UInt8)) : List UInt8 :=
  head .array elements.length ++ elements.flatten

/-- Fields whose values are encoded already, as a record. -/
def encodeRecord (fields : List (String × List UInt8)) : List UInt8 :=
  head .map fields.length ++ fields.flatMap fun field => encodeText field.1 ++ field.2

/-- A value that is encoded already, as the alternative of a name. -/
def encodeVariant (name : String) (value : List UInt8) : List UInt8 :=
  encodeRecord [(name, value)]

end VersionedTrees.Cbor
