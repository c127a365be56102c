import VersionedTrees.Bytes

/-!
# Heads

Data in the concise binary object representation (CBOR) starts with a head. The three high bits of
its first byte are the major type, which says what the data is. The other five are an argument below
24, or a code for an argument that follows in one, two, four or eight bytes, or for a length that is
not given.

Heads are written as short as they can be.
-/

namespace VersionedTrees.Cbor

/-- What data is. -/
inductive MajorType where
  /-- A number that is not negative, which is the argument. -/
  | unsigned
  /-- A negative number, which is `-1` less the argument. -/
  | negative
  /-- A byte string, with its length as the argument. -/
  | bytes
  /-- A text string, with the length of its UTF-8 form as the argument. -/
  | text
  /-- An array, with the number of its elements as the argument. -/
  | array
  /-- A map, with the number of its entries as the argument. -/
  | map
  /-- Data with a tag, which is the argument. -/
  | tag
  /-- A simple value or a floating-point number. -/
  | simple
deriving DecidableEq

namespace MajorType

/-- The bits of a major type in the first byte of a head. -/
def bits : MajorType → UInt8
  | .unsigned => 0x00
  | .negative => 0x20
  | .bytes => 0x40
  | .text => 0x60
  | .array => 0x80
  | .map => 0xa0
  | .tag => 0xc0
  | .simple => 0xe0

/-- The major type in the first byte of a head. -/
def ofByte (first : UInt8) : MajorType :=
  match first.toNat / 32 with
  | 0 => .unsigned
  | 1 => .negative
  | 2 => .bytes
  | 3 => .text
  | 4 => .array
  | 5 => .map
  | 6 => .tag
  | _ => .simple

end MajorType

/-- The number of bytes that an argument takes after the first byte of a head, from the code for it
in that byte. -/
def argumentWidth? (code : UInt8) : Option Nat :=
  if code < 24 then some 0
  else if code = 24 then some 1
  else if code = 25 then some 2
  else if code = 26 then some 4
  else if code = 27 then some 8
  else none

/-- The first byte of a head whose argument follows or is in that byte, by the code for it. -/
def MajorType.first (major : MajorType) (code : UInt8) : UInt8 :=
  major.bits + code

/-- A head with an argument in the fewest bytes. -/
def head (major : MajorType) (argument : Nat) : List UInt8 :=
  if argument < 24 then [major.first (UInt8.ofNat argument)]
  else if argument < byteCapacity 1 then major.first 24 :: bigEndian 1 argument
  else if argument < byteCapacity 2 then major.first 25 :: bigEndian 2 argument
  else if argument < byteCapacity 4 then major.first 26 :: bigEndian 4 argument
  else major.first 27 :: bigEndian 8 argument

/-- The first byte of data without a given length, which goes on to a break. -/
def MajorType.openFirst (major : MajorType) : UInt8 :=
  major.first 31

/-- The byte that ends data without a given length. -/
def breakByte : UInt8 := 0xff

end VersionedTrees.Cbor
