/-!
# Numbers and texts as bytes

Numbers are written in a fixed count of bytes, with the least or the most significant byte first.
Texts are written in UTF-8. What is written reads back.
-/

namespace VersionedTrees

/-- The count of numbers that fit into a given count of bytes. -/
def byteCapacity : Nat → Nat
  | 0 => 1
  | width + 1 => 256 * byteCapacity width

/-- A number in a given count of bytes, least significant first. -/
def littleEndian : Nat → Nat → List UInt8
  | 0, _ => []
  | width + 1, value => UInt8.ofNat (value % 256) :: littleEndian width (value / 256)

/-- A number in a given count of bytes, most significant first. -/
def bigEndian (width value : Nat) : List UInt8 :=
  (littleEndian width value).reverse

/-- The number that bytes stand for, most significant first. -/
def ofBigEndian (bytes : List UInt8) : Nat :=
  bytes.foldl (fun value byte => 256 * value + byte.toNat) 0

/-- A given count of bytes in front of others, if there are that many. -/
def takeBytes? (count : Nat) (bytes : List UInt8) : Option (List UInt8 × List UInt8) :=
  let front := bytes.take count
  if front.length = count then some (front, bytes.drop count) else none

@[simp] theorem length_littleEndian (width value : Nat) :
    (littleEndian width value).length = width := by
  induction width generalizing value with
  | zero => rfl
  | succ width same => simp [littleEndian, same]

@[simp] theorem length_bigEndian (width value : Nat) : (bigEndian width value).length = width := by
  simp [bigEndian]

/-- A number that fits into its bytes reads back. -/
theorem ofBigEndian_bigEndian {width value : Nat} (fits : value < byteCapacity width) :
    ofBigEndian (bigEndian width value) = value := by
  induction width generalizing value with
  | zero => simp_all [bigEndian, littleEndian, ofBigEndian, byteCapacity]
  | succ width same =>
    have below : value / 256 < byteCapacity width := by
      rw [byteCapacity] at fits
      omega
    have above := same below
    simp only [ofBigEndian, bigEndian] at above
    simp only [ofBigEndian, bigEndian, littleEndian, List.reverse_cons, List.foldl_append, above,
      List.foldl_cons, List.foldl_nil, UInt8.toNat_ofNat']
    omega

/-- Bytes in front of others are taken off again by their count. -/
@[simp] theorem takeBytes?_append (front rest : List UInt8) :
    takeBytes? front.length (front ++ rest) = some (front, rest) := by
  simp [takeBytes?]

/-- The bytes of a text. -/
def textBytes (text : String) : List UInt8 :=
  text.toByteArray.data.toList

/-- The text that bytes stand for, if they stand for one. -/
def textOfBytes? (bytes : List UInt8) : Option String :=
  String.fromUTF8? ⟨bytes.toArray⟩

@[simp] theorem textOfBytes?_textBytes (text : String) :
    textOfBytes? (textBytes text) = some text := by
  simp [textOfBytes?, textBytes, String.fromUTF8?, String.fromUTF8, text.isValidUTF8]

/-- Different texts have different bytes. -/
theorem textBytes_injective {left right : String} (same : textBytes left = textBytes right) :
    left = right := by
  have equal : some left = some right := by
    rw [← textOfBytes?_textBytes left, same, textOfBytes?_textBytes]
  exact Option.some.inj equal

/-- The two hexadecimal digits of a byte. -/
def byteHex (byte : UInt8) : List Char :=
  [Nat.digitChar (byte.toNat / 16), Nat.digitChar (byte.toNat % 16)]

/-- A sequence of bytes in hexadecimal digits. -/
def hex (bytes : List UInt8) : String :=
  String.ofList (bytes.flatMap byteHex)

end VersionedTrees
