import VersionedTrees.Cbor.Head

/-!
# Decoders

A decoder takes a value off the front of bytes, or fails. It may go a given number of levels deep
into data inside of data, and fails when it would have to go deeper.
-/

namespace VersionedTrees.Cbor

/-- Takes a value off the front of bytes, given the number of levels that it may go down. -/
abbrev Decoder : Type → Type := ReaderT Nat (StateT (List UInt8) Option)

namespace Decoder

variable {α : Type}

/-- The number of levels that data may be nested in data. -/
def deepest : Nat := 256

/-- The value that bytes stand for, with none left over. -/
def decode? (decoder : Decoder α) (bytes : List UInt8) : Option α :=
  match decoder deepest bytes with
  | some (value, []) => some value
  | _ => none

/-! ## Bytes -/

/-- The first byte. -/
def byte : Decoder UInt8 := fun _ bytes =>
  match bytes with
  | [] => none
  | first :: rest => some (first, rest)

/-- The first byte, which is left in its place. -/
def peek : Decoder UInt8 := fun _ bytes =>
  match bytes with
  | [] => none
  | first :: rest => some (first, first :: rest)

/-- A given count of bytes. -/
def take (count : Nat) : Decoder (List UInt8) := fun _ bytes => takeBytes? count bytes

/-- The number of bytes that are left. -/
def remaining : Decoder Nat := fun _ bytes => some (bytes.length, bytes)

/-! ## Repetition and nesting -/

/-- A given count of values, one after the other. -/
def times (decoder : Decoder α) : Nat → Decoder (List α)
  | 0 => return []
  | count + 1 => do
    let value ← decoder
    let values ← decoder.times count
    return value :: values

/-- Values up to a break, at most as many as there are steps. -/
def untilBreakWithin (decoder : Decoder α) : Nat → Decoder (List α)
  | 0 => failure
  | steps + 1 => do
    if (← peek) = breakByte then
      let _ ← byte
      return []
    else
      let value ← decoder
      let values ← decoder.untilBreakWithin steps
      return value :: values

/-- Values up to a break. Every value takes a byte at least, and so does the break. -/
def untilBreak (decoder : Decoder α) : Decoder (List α) := do
  decoder.untilBreakWithin (← remaining)

/-- A value one level down. -/
def nested (decoder : Decoder α) : Decoder α
  | 0 => failure
  | levels + 1 => decoder levels

/-- A value that may hold values of its own kind one level down. -/
def recursive (layer : Decoder α → Decoder α) : Decoder α
  | 0 => layer failure 0
  | levels + 1 => layer (fun _ => recursive layer levels) (levels + 1)

/-! ## Heads -/

/-- The argument of a head with a given first byte, in at most `width` more bytes. A head is taken
for one of the expected major type, and the bits of that type are not looked at. So the head of a
number will do for any other. -/
def argument (major : MajorType) (width : Nat) (first : UInt8) : Decoder Nat := do
  let code := first &&& ~~~major.bits
  match argumentWidth? code with
  | none => failure
  | some 0 => return code.toNat
  | some needed =>
    if needed ≤ width then
      let bytes ← take needed
      return ofBigEndian bytes
    else
      failure

/-- The length of data of an expected major type, or none if it goes on to a break. -/
def length? (major : MajorType) : Decoder (Option Nat) := do
  let first ← byte
  if first = major.openFirst then
    return none
  else
    return some (← argument major 8 first)

/-- The length of data that has to have one. -/
def length (major : MajorType) : Decoder Nat := do
  match ← length? major with
  | some length => return length
  | none => failure

/-! ## Numbers and strings -/

/-- A number that is not negative, in at most `width` bytes after the first. -/
def nat (width : Nat) : Decoder Nat := do
  argument .unsigned width (← byte)

/-- An integer, in at most `width` bytes after the first. -/
def int (width : Nat) : Decoder Int := do
  let first ← byte
  match MajorType.ofByte first with
  | .unsigned => return Int.ofNat (← argument .unsigned width first)
  | .negative => return Int.negSucc (← argument .negative width first)
  | _ => failure

/-- The contents of a string. Without a given length, they are pieces up to a break, and each piece
is a string again. -/
def string (major : MajorType) : Decoder (List UInt8) :=
  recursive fun piece => do
    match ← length? major with
    | some length => take length
    | none => return (← piece.untilBreak).flatten

/-- A text. Its UTF-8 form need not be one in each of its pieces. -/
def text : Decoder String := do
  match textOfBytes? (← string .text) with
  | some text => return text
  | none => failure

/-! ## Arrays, records and alternatives -/

/-- The elements of an array, whose number has to be given. -/
def array (element : Decoder α) : Decoder (List α) :=
  nested do
    element.times (← length .array)

/-- A value, or null for none. -/
def optional (decoder : Decoder α) : Decoder (Option α) := do
  if (← peek) = MajorType.simple.first 22 then
    let _ ← byte
    return none
  else
    return some (← decoder.nested)

/-- Goes through the fields of a record. Each name says what to do with the value after it, given
what was found in the fields before. -/
def fields (field : String → α → Decoder α) : Nat → α → Decoder α
  | 0, found => return found
  | count + 1, found => do
    let name ← text
    let found ← field name found
    fields field count found

/-- What is found in the fields of a record, the number of which has to be given. -/
def record (field : String → α → Decoder α) (start : α) : Decoder α :=
  nested do
    fields field (← length .map) start

/-- The value of a field that was not there before. -/
def once (found : Option α) (decoder : Decoder α) : Decoder (Option α) :=
  match found with
  | none => return some (← decoder)
  | some _ => failure

/-- The value of a field that has to be there. -/
def required : Option α → Decoder α
  | some value => return value
  | none => failure

/-- A value that belongs to one of some alternatives. A name in front says to which, and the two may
be the one entry of a map, which then has the shortest head. -/
def variant (alternative : String → Decoder α) : Decoder α :=
  nested do
    let first ← peek
    if first = MajorType.map.first 1 then
      let _ ← byte
      alternative (← text)
    else if MajorType.ofByte first = .text then
      alternative (← text)
    else
      failure

/-! ## Anything -/

/-- Skips what follows a head with a given first byte, with `inner` for the data inside. -/
def skipBody (inner : Decoder Unit) (first : UInt8) : Decoder Unit := do
  let major := MajorType.ofByte first
  let entry := inner *> inner
  let openEnded := first = major.openFirst
  match major with
  | .unsigned | .negative => discard (argument major 8 first)
  | .bytes | .text =>
    if openEnded then discard inner.untilBreak
    else discard (take (← argument major 8 first))
  | .array =>
    if openEnded then discard inner.untilBreak
    else discard (inner.times (← argument major 8 first))
  | .map =>
    if openEnded then discard entry.untilBreak
    else discard (entry.times (← argument major 8 first))
  | .tag =>
    let _ ← argument major 8 first
    inner
  | .simple => skipSimple first
where
  /-- Skips what follows the head of a simple value or a floating-point number. -/
  skipSimple (first : UInt8) : Decoder Unit :=
    if MajorType.simple.first 20 ≤ first ∧ first ≤ MajorType.simple.first 23 then return ()
    else if first = MajorType.simple.first 25 then discard (take 2)
    else if first = MajorType.simple.first 26 then discard (take 4)
    else if first = MajorType.simple.first 27 then discard (take 8)
    else failure

/-- Skips data of any kind. -/
def skip : Decoder Unit :=
  nested (recursive fun inner => do skipBody inner (← byte))

end Decoder

end VersionedTrees.Cbor
