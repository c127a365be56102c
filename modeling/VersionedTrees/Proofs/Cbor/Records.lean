import VersionedTrees.Cbor.Lemmas

/-!
# Records and alternatives are decoded

`Reads` is put together along the structure of a decoder. A record reads back if its fields do, one
after the other, and an alternative if the value behind its name does. What is inside of data is no
longer than the data, so that all lengths fit if that of the whole does.
-/

namespace VersionedTrees.Cbor

/-! ## Lengths -/

theorem length_le_length_encodeArray_of_mem {elements : List (List UInt8)} {element : List UInt8}
    (inside : element ∈ elements) : element.length ≤ (encodeArray elements).length := by
  have part := (List.sublist_flatten_of_mem inside).length_le
  rw [encodeArray, List.length_append]
  omega

theorem length_le_length_encodeRecord {fields : List (String × List UInt8)} {name : String}
    {bytes : List UInt8} (inside : (name, bytes) ∈ fields) :
    bytes.length ≤ (encodeRecord fields).length := by
  have among := List.mem_map_of_mem (f := fun field => encodeText field.1 ++ field.2) inside
  have part : (encodeText name ++ bytes).length ≤
      (fields.flatMap fun field => encodeText field.1 ++ field.2).length :=
    (List.sublist_flatten_of_mem among).length_le
  rw [List.length_append] at part
  rw [encodeRecord, List.length_append]
  omega

theorem length_le_length_encodeVariant (name : String) (value : List UInt8) :
    value.length ≤ (encodeVariant name value).length :=
  length_le_length_encodeRecord (List.mem_singleton_self (name, value))

/-- An alternative starts with the head of a map with one entry. -/
theorem encodeVariant_eq_cons (name : String) (value : List UInt8) :
    encodeVariant name value = MajorType.map.first 1 :: (encodeText name ++ value) := by
  have first : head .map 1 = [MajorType.map.first 1] := by decide
  rw [encodeVariant, encodeRecord, List.length_singleton, first, List.flatMap_singleton]
  rfl

namespace Decoder

variable {α β : Type} {levels : Nat} {bytes more : List UInt8} {value : α} {result : β}

/-! ## Sequences -/

theorem reads_pure (levels : Nat) (value : α) : Reads (pure value) levels [] value :=
  fun _ => rfl

/-- One after the other, two decoders take the bytes of both. -/
theorem Reads.bind {decoder : Decoder α} {next : α → Decoder β}
    (first : Reads decoder levels bytes value) (second : Reads (next value) levels more result) :
    Reads (decoder >>= next) levels (bytes ++ more) result := by
  intro rest
  rw [run_bind, List.append_assoc, first, Option.bind_some, second]

/-- A value that is read is handed on. -/
theorem Reads.map {decoder : Decoder α} (first : Reads decoder levels bytes value)
    (change : α → β) : Reads (do return change (← decoder)) levels bytes (change value) := by
  intro rest
  rw [run_bind, first, Option.bind_some, run_pure]

theorem Reads.nested {decoder : Decoder α} (inside : Reads decoder levels bytes value) :
    Reads decoder.nested (levels + 1) bytes value := by
  intro rest
  rw [run_nested, inside]

/-! ## Fields -/

theorem Reads.once {decoder : Decoder α} (reads : Reads decoder levels bytes value) :
    Reads (Decoder.once none decoder) levels bytes (some value) :=
  reads.map some

theorem reads_fields_nil {field : String → α → Decoder α} (levels : Nat) (found : α) :
    Reads (fields field 0 found) levels [] found :=
  reads_pure levels found

/-- A field is read, and then those after it. -/
theorem reads_fields_cons {field : String → α → Decoder α} {name : String} {found next last : α}
    {count : Nat} (short : (encodeText name).length < byteCapacity 8)
    (first : Reads (field name found) levels bytes next)
    (others : Reads (fields field count next) levels more last) :
    Reads (fields field (count + 1) found) levels ((encodeText name ++ bytes) ++ more) last := by
  rw [List.append_assoc]
  exact (reads_text name levels short).bind (first.bind others)

/-- A record is read if its fields are. -/
theorem reads_record {field : String → α → Decoder α} {start last : α}
    {entries : List (String × List UInt8)} (few : entries.length < byteCapacity 8)
    (all : Reads (fields field entries.length start) levels
      (entries.flatMap fun entry => encodeText entry.1 ++ entry.2) last) :
    Reads (record field start) (levels + 1) (encodeRecord entries) last :=
  ((reads_length levels .map few).bind all).nested

/-- The elements of an array are read if each of them is, and if the whole is not too long. -/
theorem reads_array_of_short {decoder : Decoder α} {encode : α → List UInt8} {values : List α}
    (back : ∀ value ∈ values, Reads decoder levels (encode value) value)
    (filled : ∀ value, 0 < (encode value).length)
    (short : (encodeArray (values.map encode)).length < byteCapacity 8) :
    Reads (array decoder) (levels + 1) (encodeArray (values.map encode)) values := by
  apply reads_array back
  have count := length_le_length_encodeArray (values.map encode) fun _ inside => by
    obtain ⟨value, -, rfl⟩ := List.mem_map.mp inside
    exact filled value
  rw [List.length_map] at count
  omega

/-! ## Alternatives -/

/-- An alternative is read if the value behind its name is. -/
theorem reads_variant {alternative : String → Decoder α} {name : String}
    (short : (encodeText name).length < byteCapacity 8)
    (reads : Reads (alternative name) levels bytes value) :
    Reads (variant alternative) (levels + 1) (encodeVariant name bytes) value := by
  have all := (reads_text name levels short).bind reads
  rw [encodeVariant_eq_cons]
  apply Reads.nested
  intro rest
  rw [List.cons_append, run_bind, run_peek, Option.bind_some, if_pos rfl, run_bind, run_byte,
    Option.bind_some]
  exact all rest

theorem reads_optional_none (decoder : Decoder α) (levels : Nat) :
    Reads (optional decoder) levels encodeNull none := by
  have written : encodeNull = [MajorType.simple.first 22] := by decide
  intro rest
  rw [written]
  rfl

/-- A value that does not start like null is read. -/
theorem Reads.optional {decoder : Decoder α} {first : UInt8}
    (reads : Reads decoder levels (first :: bytes) value)
    (different : first ≠ MajorType.simple.first 22) :
    Reads (optional decoder) (levels + 1) (first :: bytes) (some value) := by
  have all := (reads.nested).map some
  intro rest
  rw [Decoder.optional, run_bind, List.cons_append, run_peek, Option.bind_some, if_neg different]
  exact all rest

end Decoder

end VersionedTrees.Cbor
