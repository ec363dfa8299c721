import Bitwire.Bisect
import Bitwire.Pattern

/-!
# Formats

A format says how a value occupies bits, and nothing else: aliases are gone, and an enum is its
width and its set of values.  The format of a message lists its fields in ascending order of their
numbers, each with the bit it starts at; the codec consults nothing else.
-/

namespace Bitwire

/-- The format of an enum. -/
structure EnumFormat where
  name : String
  /-- Width of the unsigned integer that carries the value. -/
  bits : Nat
  /-- Whether values outside `values` are expected. -/
  extensible : Bool
  /-- The declared values, ascending and without repetition. -/
  values : Array UInt64
deriving DecidableEq, Repr, Inhabited

namespace EnumFormat

/-- The format of an enum whose values are listed in any order, repetitions included. -/
def ofValues (name : String) (bits : Nat) (extensible : Bool) (values : List UInt64) :
    EnumFormat :=
  ⟨name, bits, extensible, (values.mergeSort fun a b => decide (a ≤ b)).eraseDups.toArray⟩

/-- Whether a value is declared. -/
def contains (e : EnumFormat) (value : UInt64) : Bool :=
  (Bisect.indexOf? e.values id value).isSome

end EnumFormat

/-- A field of format `φ` that starts at bit `offset` of its message. -/
structure PlacedField (φ : Type) where
  number : UInt16
  name : String
  offset : Nat
  format : φ
deriving DecidableEq, Repr

/-- The format of a message over field formats `φ`. -/
structure MessageFormatOf (φ : Type) where
  name : String
  /-- The fields, in ascending order of their numbers. -/
  fields : Array (PlacedField φ)
  /-- How many bits the message occupies. -/
  totalBits : Nat
deriving DecidableEq, Repr, Inhabited

/-- How a value occupies bits. -/
inductive Format where
  /-- One bit. -/
  | bool
  /-- A signed integer in two's complement. -/
  | int (bits : Nat)
  /-- An unsigned integer. -/
  | uint (bits : Nat)
  | enum (e : EnumFormat)
  /-- `capacity` values of one format, one after the other. -/
  | array (element : Format) (capacity : Nat)
  | message (m : MessageFormatOf Format)

instance : Inhabited Format := ⟨.bool⟩

/-- A field of a message format. -/
abbrev FieldFormat := PlacedField Format

/-- The format of a message. -/
abbrev MessageFormat := MessageFormatOf Format

namespace Format

/-! ## Equality -/

mutual

/-- Whether two formats are the same. -/
def same : Format → Format → Bool
  | .bool, .bool => true
  | .int bits, .int bits' => bits == bits'
  | .uint bits, .uint bits' => bits == bits'
  | .enum e, .enum e' => e == e'
  | .array element capacity, .array element' capacity' =>
    element.same element' && capacity == capacity'
  | .message ⟨name, ⟨fields⟩, totalBits⟩, .message ⟨name', ⟨fields'⟩, totalBits'⟩ =>
    name == name' && sameFields fields fields' && totalBits == totalBits'
  | _, _ => false

/-- Whether two lists of fields are the same. -/
def sameFields : List FieldFormat → List FieldFormat → Bool
  | [], [] => true
  | ⟨number, name, offset, format⟩ :: rest, ⟨number', name', offset', format'⟩ :: rest' =>
    number == number' && name == name' && offset == offset' && format.same format' &&
      sameFields rest rest'
  | _, _ => false

end

mutual

/-- `same` decides equality. -/
theorem same_iff : ∀ a b : Format, a.same b = true ↔ a = b
  | .bool, b => by cases b <;> simp [same]
  | .int bits, b => by cases b <;> simp [same]
  | .uint bits, b => by cases b <;> simp [same]
  | .enum e, b => by cases b <;> simp [same]
  | .array element capacity, b => by
    match b with
    | .array element' capacity' => simp [same, same_iff element element']
    | .bool | .int _ | .uint _ | .enum _ | .message _ => simp [same]
  | .message ⟨name, ⟨fields⟩, totalBits⟩, b => by
    match b with
    | .message ⟨name', ⟨fields'⟩, totalBits'⟩ =>
      simp [same, sameFields_iff fields fields', and_assoc]
    | .bool | .int _ | .uint _ | .enum _ | .array .. => simp [same]

/-- `sameFields` decides equality of lists. -/
theorem sameFields_iff : ∀ xs ys : List FieldFormat, sameFields xs ys = true ↔ xs = ys
  | [], ys => by cases ys <;> simp [sameFields]
  | ⟨number, name, offset, format⟩ :: rest, ys => by
    match ys with
    | [] => simp [sameFields]
    | ⟨number', name', offset', format'⟩ :: rest' =>
      simp [sameFields, same_iff format format', sameFields_iff rest rest', and_assoc]

end

end Format

instance : DecidableEq Format := fun a b => decidable_of_iff _ (Format.same_iff a b)

namespace Format

/-- The widest value; an array too large to be placed in a message has this width. -/
def maxWidth : Nat := UInt32.size - 1

/-- How many bits a value of this format occupies. -/
def width : Format → Nat
  | .bool => 1
  | .int bits => bits
  | .uint bits => bits
  | .enum e => e.bits
  | .array element capacity => min (element.width * capacity) maxWidth
  | .message m => m.totalBits

/-- The first bit of element `i` of an array of this format, counted from the array's first. -/
def elementOffset (element : Format) (i : Nat) : Nat :=
  i * element.width


mutual

/-- Whether a value of this format holds an enum whose values are checked. -/
def hasClosedEnum : Format → Bool
  | .enum e => !e.extensible
  | .array element _ => element.hasClosedEnum
  | .message ⟨_, ⟨fields⟩, _⟩ => anyClosedEnum fields
  | _ => false

/-- Whether one of the fields holds an enum whose values are checked. -/
def anyClosedEnum : List FieldFormat → Bool
  | [] => false
  | ⟨_, _, _, format⟩ :: rest => format.hasClosedEnum || anyClosedEnum rest

end

end Format

namespace PlacedField

/-- The first bit past a field. -/
def stop (f : FieldFormat) : Nat :=
  f.offset + f.format.width

end PlacedField

namespace MessageFormat

/-- The format of a message whose fields are listed in any order.  Its width is where the field
with the highest number ends. -/
def ofFields (name : String) (fields : List FieldFormat) : MessageFormat :=
  let sorted := fields.mergeSort fun a b => decide (a.number ≤ b.number)
  ⟨name, sorted.toArray, min ((sorted.getLast?.map PlacedField.stop).getD 0) Format.maxWidth⟩

/-- How many bytes the message occupies. -/
def byteCount (m : MessageFormat) : Nat :=
  Pattern.byteCount m.totalBits

/-- Where the field numbered `number` stands among the fields. -/
def fieldIndex? (m : MessageFormat) (number : UInt16) : Option Nat :=
  Bisect.indexOf? m.fields PlacedField.number number

/-- The field numbered `number`. -/
def field? (m : MessageFormat) (number : UInt16) : Option FieldFormat :=
  Bisect.find? m.fields PlacedField.number number

/-- How many fields end at or before bit `lo` of the message.  Fields follow each other without
gaps, so these are the first ones. -/
def endedBefore (m : MessageFormat) (lo : Nat) : Nat :=
  Bisect.partitionPoint m.fields (fun f => decide (f.stop ≤ lo))

end MessageFormat

end Bitwire
