import VersionedTrees.Cbor.Decoder
import VersionedTrees.Cbor.Encoding

/-!
# What is encoded is decoded

`Reads` says that a decoder takes exactly some bytes off the front of any others. Heads, numbers,
texts and arrays read back what was written, if their lengths fit into a head.
-/

namespace VersionedTrees.Cbor

/-- A head has a byte at least. -/
theorem length_head_pos (major : MajorType) (argument : Nat) :
    0 < (head major argument).length := by
  unfold head
  repeat' split
  all_goals simp

/-- An array takes at least as many bytes as it has elements. -/
theorem length_le_length_encodeArray (elements : List (List UInt8))
    (filled : ∀ element ∈ elements, 0 < element.length) :
    elements.length ≤ (encodeArray elements).length := by
  have count : elements.length ≤ elements.flatten.length := by
    induction elements with
    | nil => simp
    | cons element elements same =>
      have first := filled element List.mem_cons_self
      have others := same fun element inside => filled element (List.mem_cons_of_mem _ inside)
      simp only [List.length_cons, List.flatten_cons, List.length_append]
      omega
  simp only [encodeArray, List.length_append]
  omega

namespace Decoder

variable {α β : Type} {levels : Nat}

@[simp] theorem run_pure (value : α) (bytes : List UInt8) :
    (pure value : Decoder α) levels bytes = some (value, bytes) := rfl

@[simp] theorem run_bind (decoder : Decoder α) (next : α → Decoder β) (bytes : List UInt8) :
    (decoder >>= next) levels bytes =
      (decoder levels bytes).bind fun taken => next taken.1 levels taken.2 := rfl

@[simp] theorem run_map (change : α → β) (decoder : Decoder α) (bytes : List UInt8) :
    (change <$> decoder) levels bytes =
      (decoder levels bytes).bind fun taken => some (change taken.1, taken.2) := rfl

@[simp] theorem run_byte (first : UInt8) (rest : List UInt8) :
    byte levels (first :: rest) = some (first, rest) := rfl

@[simp] theorem run_peek (first : UInt8) (rest : List UInt8) :
    peek levels (first :: rest) = some (first, first :: rest) := rfl

@[simp] theorem run_take (count : Nat) (bytes : List UInt8) :
    take count levels bytes = takeBytes? count bytes := rfl

@[simp] theorem run_nested (decoder : Decoder α) (bytes : List UInt8) :
    decoder.nested (levels + 1) bytes = decoder levels bytes := rfl

/-- A decoder takes bytes off the front of any others, and reads a value from them. -/
def Reads (decoder : Decoder α) (levels : Nat) (bytes : List UInt8) (value : α) : Prop :=
  ∀ rest, decoder levels (bytes ++ rest) = some (value, rest)

/-- The code of an argument is what is left of the first byte without the bits of the type. -/
theorem code_first (major : MajorType) {code : UInt8} (small : code < 32) :
    major.first code &&& ~~~major.bits = code := by
  have all : ∀ major : MajorType, ∀ code : Fin 32,
      major.first (UInt8.ofNat code) &&& ~~~major.bits = UInt8.ofNat code := by
    intro major
    cases major <;> decide
  have below : code.toNat < 32 := by simpa [UInt8.lt_iff_toNat_lt] using small
  simpa using all major ⟨code.toNat, below⟩

/-- An argument below 24 is read from the first byte. -/
theorem reads_argument_small (major : MajorType) (width : Nat) {value : Nat} (small : value < 24) :
    Reads (argument major width (major.first (UInt8.ofNat value))) levels [] value := by
  intro rest
  have code : UInt8.ofNat value < 24 := by
    rw [UInt8.lt_iff_toNat_lt]
    simp
    omega
  have back : (UInt8.ofNat value).toNat = value := by
    simp
    omega
  rw [argument, code_first major (UInt8.lt_trans code (by decide))]
  simp [argumentWidth?, code, back]

/-- An argument that follows the first byte is read from the bytes after it. -/
theorem reads_argument_wide (major : MajorType) {code : UInt8} {width needed value : Nat}
    (small : code < 32) (follows : argumentWidth? code = some (needed + 1))
    (enough : needed + 1 ≤ width) (fits : value < byteCapacity (needed + 1)) :
    Reads (argument major width (major.first code)) levels (bigEndian (needed + 1) value)
      value := by
  intro rest
  have taken := takeBytes?_append (bigEndian (needed + 1) value) rest
  rw [length_bigEndian] at taken
  rw [argument, code_first major small]
  simp [follows, enough, taken, ofBigEndian_bigEndian fits]

/-- The widths that an argument can have after the first byte. -/
def IsWidth (width : Nat) : Prop := width = 1 ∨ width = 2 ∨ width = 4 ∨ width = 8

/-- A head starts with a byte from which its argument reads back, with any width that the argument
fits into. -/
theorem head_reads (levels : Nat) (major : MajorType) {width value : Nat} (isWidth : IsWidth width)
    (fits : value < byteCapacity width) :
    ∃ code bytes, head major value = major.first code :: bytes ∧ code < 28 ∧
      Reads (argument major width (major.first code)) levels bytes value := by
  unfold head
  split
  · next small =>
    refine ⟨_, [], rfl, ?_, reads_argument_small major width small⟩
    rw [UInt8.lt_iff_toNat_lt]
    simp
    omega
  split
  · next fits =>
    refine ⟨24, _, rfl, by decide, reads_argument_wide major (by decide) rfl ?_ fits⟩
    rcases isWidth with rfl | rfl | rfl | rfl <;> decide
  split
  · next wide fits =>
    refine ⟨25, _, rfl, by decide, reads_argument_wide major (by decide) rfl ?_ fits⟩
    rcases isWidth with rfl | rfl | rfl | rfl <;> omega
  split
  · next wide fits =>
    refine ⟨26, _, rfl, by decide, reads_argument_wide major (by decide) rfl ?_ fits⟩
    rcases isWidth with rfl | rfl | rfl | rfl <;> omega
  · next wide =>
    have most : width = 8 := by
      rcases isWidth with rfl | rfl | rfl | rfl <;> first | rfl | contradiction
    subst most
    exact ⟨27, _, rfl, by decide, reads_argument_wide major (by decide) rfl (by decide) fits⟩

/-- A head that is as long as it has to be is not that of data without a given length. -/
theorem first_ne_openFirst (major : MajorType) {code : UInt8} (small : code < 28) :
    major.first code ≠ major.openFirst := by
  intro same
  have below : code < 32 := UInt8.lt_trans small (by decide)
  have codes : code = 31 := by
    rw [← code_first major below, same]
    exact code_first major (by decide)
  rw [codes] at small
  exact absurd small (by decide)

/-- A length reads back. -/
theorem reads_length? (levels : Nat) (major : MajorType) {length : Nat} (fits : length < byteCapacity 8) :
    Reads (length? major) levels (head major length) (some length) := by
  intro rest
  obtain ⟨code, bytes, written, small, back⟩ :=
    head_reads levels major (.inr (.inr (.inr rfl))) fits
  simp [written, length?, first_ne_openFirst major small, back rest]

/-- A length that has to be there reads back. -/
theorem reads_length (levels : Nat) (major : MajorType) {length : Nat} (fits : length < byteCapacity 8) :
    Reads (Decoder.length major) levels (head major length) length := by
  intro rest
  simp [Decoder.length, reads_length? levels major fits rest]

/-- A number reads back with any width that it fits into. -/
theorem reads_nat (levels : Nat) {width value : Nat} (isWidth : IsWidth width)
    (fits : value < byteCapacity width) :
    Reads (nat width) levels (encodeNat value) value := by
  intro rest
  obtain ⟨code, bytes, written, -, back⟩ :=
    head_reads levels .unsigned isWidth fits
  simp [encodeNat, written, nat, back rest]

/-- The major type is in the first byte. -/
theorem ofByte_first (major : MajorType) {code : UInt8} (small : code < 32) :
    MajorType.ofByte (major.first code) = major := by
  have all : ∀ major : MajorType, ∀ code : Fin 32,
      MajorType.ofByte (major.first (UInt8.ofNat code)) = major := by
    intro major
    cases major <;> decide
  have below : code.toNat < 32 := by simpa [UInt8.lt_iff_toNat_lt] using small
  simpa using all major ⟨code.toNat, below⟩

/-- What the argument of an integer has to be for the integer to be within a width. -/
def IntFits (width : Nat) : Int → Prop
  | .ofNat value => value < byteCapacity width
  | .negSucc value => value < byteCapacity width

/-- An integer reads back with any width that it fits into. -/
theorem reads_int {width : Nat} {value : Int} (isWidth : IsWidth width)
    (fits : IntFits width value) :
    Reads (int width) levels (encodeInt value) value := by
  intro rest
  cases value with
  | ofNat value =>
    obtain ⟨code, bytes, written, small, back⟩ :=
      head_reads levels .unsigned isWidth fits
    have isMajor := ofByte_first .unsigned (UInt8.lt_trans small (by decide))
    simp [encodeInt, written, int, isMajor, back rest]
  | negSucc value =>
    obtain ⟨code, bytes, written, small, back⟩ :=
      head_reads levels .negative isWidth fits
    have isMajor := ofByte_first .negative (UInt8.lt_trans small (by decide))
    simp [encodeInt, written, int, isMajor, back rest]

/-- The contents of a string with a given length read back. -/
theorem reads_string (levels : Nat) (major : MajorType) {value : List UInt8}
    (fits : value.length < byteCapacity 8) :
    Reads (string major) levels (head major value.length ++ value) value := by
  intro rest
  rw [List.append_assoc]
  cases levels <;> simp [string, recursive, reads_length? _ major fits (value ++ rest)]

/-- A text reads back if its form is not too long for a head. -/
theorem reads_text (value : String) (levels : Nat)
    (fits : (encodeText value).length < byteCapacity 8) :
    Reads text levels (encodeText value) value := by
  intro rest
  rw [encodeText, List.length_append] at fits
  have contents := reads_string levels .text (Nat.lt_of_add_left_lt fits) rest
  rw [← encodeText] at contents
  simp [text, contents]

/-- Values that read back one by one read back one after the other. -/
theorem reads_times {decoder : Decoder α} {encode : α → List UInt8} {values : List α}
    (back : ∀ value ∈ values, Reads decoder levels (encode value) value) :
    Reads (decoder.times values.length) levels (values.map encode).flatten values := by
  induction values with
  | nil => exact fun _ => rfl
  | cons value values same =>
    intro rest
    have first := back value List.mem_cons_self ((values.map encode).flatten ++ rest)
    have others := same (fun value inside => back value (List.mem_cons_of_mem _ inside)) rest
    simp [times, first, others]

/-- An array reads back if its elements do, one level down. -/
theorem reads_array {decoder : Decoder α} {encode : α → List UInt8} {values : List α}
    (back : ∀ value ∈ values, Reads decoder levels (encode value) value)
    (fits : values.length < byteCapacity 8) :
    Reads (array decoder) (levels + 1) (encodeArray (values.map encode)) values := by
  intro rest
  rw [encodeArray, List.append_assoc, List.length_map]
  have count := reads_length levels .array fits ((values.map encode).flatten ++ rest)
  simp [array, count, reads_times back rest]

end Decoder

end VersionedTrees.Cbor
