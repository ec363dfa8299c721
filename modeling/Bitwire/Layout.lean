import Bitwire.Bisect
import Bitwire.Pattern
import Bitwire.Schema.Error

/-!
# Layout

A layout gives every field of a message its place in the message's bits.  Fields are placed in
ascending order of their numbers, whatever order they were declared in.  The first starts at bit 0
and each following one where the one before it ends, so a message has neither gaps nor overlaps.
-/

namespace Bitwire

/-- A field that is to be placed. -/
structure SizedField where
  number : UInt16
  name : String
  /-- How many bits the field occupies. -/
  width : Nat
deriving DecidableEq, Repr

/-- The place of one field in the bits of its message. -/
structure FieldLayout where
  number : UInt16
  name : String
  /-- First bit of the field. -/
  offset : Nat
  /-- How many bits the field occupies. -/
  width : Nat
deriving DecidableEq, Repr, Inhabited

namespace FieldLayout

/-- The first bit past the field. -/
def stop (entry : FieldLayout) : Nat :=
  entry.offset + entry.width

/-- Whether the field starts before byte `byte` ends and ends after the byte starts.  Positions are
words: the first bit of a byte past `2 ^ 61` wraps around. -/
def overlapsByte (entry : FieldLayout) (byte : UInt64) : Bool :=
  let lo := byte * 8
  UInt64.ofNat entry.offset < lo + 8 && lo < UInt64.ofNat entry.stop

end FieldLayout

/-- The places of all fields of a message, in ascending order of their numbers. -/
structure Layout where
  entries : Array FieldLayout
  /-- How many bits the message occupies. -/
  totalBits : Nat
deriving DecidableEq, Repr, Inhabited

namespace Layout

/-- The largest message, in bits. -/
def maxBits : Nat := UInt32.size - 1

/-- Widths are reported up to this bound; wider ones are reported as the bound itself. -/
def widthCeiling : Nat := UInt64.size - 1

/-- How many bytes the message occupies. -/
def byteCount (layout : Layout) : Nat :=
  Pattern.byteCount layout.totalBits

/-- The place of the field numbered `number`. -/
def get? (layout : Layout) (number : UInt16) : Option FieldLayout :=
  Bisect.find? layout.entries FieldLayout.number number

/-- The first bit of the field numbered `number`. -/
def offsetOf? (layout : Layout) (number : UInt16) : Option Nat :=
  (layout.get? number).map FieldLayout.offset

/-- The fields that overlap byte `byte`, in order of their numbers. -/
def overlapping (layout : Layout) (byte : UInt64) : List FieldLayout :=
  layout.entries.toList.filter (·.overlapsByte byte)

/-- Places fields that are sorted by number, the next at bit `offset`.  `last` is the number of
the field placed before. -/
def placeSorted (message : String) :
    List SizedField → (offset : Nat) → (last : Option UInt16) →
      Except SchemaError (List FieldLayout × Nat)
  | [], offset, _ => .ok ([], offset)
  | f :: rest, offset, last =>
    let stop := min (offset + f.width) widthCeiling
    if last = some f.number then .error (.duplicateFieldNumber message f.number)
    else if maxBits < stop then .error (.messageTooLarge message stop)
    else
      match placeSorted message rest stop (some f.number) with
      | .ok (entries, total) => .ok (⟨f.number, f.name, offset, f.width⟩ :: entries, total)
      | .error e => .error e

/-- Sorts fields by number; fields of one number keep their order. -/
def sortFields (fields : List SizedField) : List SizedField :=
  fields.mergeSort fun a b => decide (a.number ≤ b.number)

/-- Computes the layout of the message called `message`. -/
def compute (message : String) (fields : List SizedField) : Except SchemaError Layout :=
  (placeSorted message (sortFields fields) 0 none).map fun (entries, total) =>
    ⟨entries.toArray, total⟩

end Layout

end Bitwire
