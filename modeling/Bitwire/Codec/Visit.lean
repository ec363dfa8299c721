import Bitwire.Format
import Bitwire.Place

/-!
# Visits

Which values of a message have bits in a given byte of its encoding, and which of their bits.  The
answer is computed from the format alone, without looking at a message: a list of visits in the
order of the fields, a nested message being one visit with visits of its own.  Only what reaches
the byte is looked at: fields that end before it are skipped by bisection, the walk stops at the
first field behind it, and the elements of an array that reach it are found by division.
-/

namespace Bitwire

/-- The part of one value that falls into one byte. -/
structure ByteSpan where
  /-- How far the value's pattern is moved down to line up with the byte; negative if the value
  starts inside the byte. -/
  shift : Int
  /-- The bits of the byte that belong to the value. -/
  mask : UInt8
deriving DecidableEq, Repr

namespace ByteSpan

/-- The part of the value of `width` bits at bit `offset` that falls into byte `byte`. -/
def of? (offset width byte : Nat) : Option ByteSpan :=
  let lo := 8 * byte
  let start := max offset lo
  let stop := min (offset + width) (lo + 8)
  if start < stop then
    some ⟨(lo : Int) - (offset : Int), Pattern.byteMask (start - lo) (stop - start)⟩
  else none

/-- What the part in an input byte adds to the value: how far up, and which bits. -/
def contribution (span : ByteSpan) (input : UInt8) : Nat × UInt8 :=
  let own := input &&& span.mask
  if 0 ≤ span.shift then (span.shift.toNat, own)
  else (0, own >>> UInt8.ofNat (-span.shift).toNat)

end ByteSpan

/-- The indices of the elements that have a bit in byte `byte`, for `capacity` elements of `width`
bits from bit `offset` on. -/
def overlappingElements (width capacity offset byte : Nat) : List Nat :=
  if width = 0 then []
  else
    let lo := 8 * byte
    let start := max offset lo
    let stop := min (offset + width * capacity) (lo + 8)
    if start < stop then
      let first := (start - offset) / width
      let last := (stop - 1 - offset) / width
      (List.range (last + 1 - first)).map (first + ·)
    else []

/-- What the codec does for one byte. -/
inductive Visit where
  /-- Moves the part of a value that falls into the byte. -/
  | value (place : Place) (span : ByteSpan)
  /-- Enters the nested message at a place. -/
  | message (place : Place) (inner : List Visit)

instance : Inhabited Visit := ⟨.message default []⟩

/-- The visit that a value of `width` bits takes for byte `byte`, if it has a bit there. -/
def Visit.ofLeaf (width : Nat) (place : Place) (offset byte : Nat) : List Visit :=
  match ByteSpan.of? offset width byte with
  | some span => [.value place span]
  | none => []

mutual

/-- The visits that a value at bit `offset` takes for byte `byte`. -/
def Format.visits : Format → (place : Place) → (offset byte : Nat) → List Visit
  | .array element capacity, place, offset, byte =>
    (overlappingElements element.width capacity offset byte).flatMap fun i =>
      element.visits (place.element i) (offset + element.elementOffset i) byte
  | .message ⟨name, ⟨fields⟩, totalBits⟩, place, offset, byte =>
    let m : MessageFormat := ⟨name, ⟨fields⟩, totalBits⟩
    [.message place (Format.fieldVisits fields (m.endedBefore (8 * byte - offset)) offset byte)]
  | .bool, place, offset, byte => Visit.ofLeaf 1 place offset byte
  | .int bits, place, offset, byte => Visit.ofLeaf bits place offset byte
  | .uint bits, place, offset, byte => Visit.ofLeaf bits place offset byte
  | .enum e, place, offset, byte => Visit.ofLeaf e.bits place offset byte

/-- The visits that the fields of a message at bit `base` take for byte `byte`, the first `skip`
fields left out and the walk ended at the first field behind the byte. -/
def Format.fieldVisits : List FieldFormat → (skip base byte : Nat) → List Visit
  | [], _, _, _ => []
  | _ :: rest, skip + 1, base, byte => Format.fieldVisits rest skip base byte
  | ⟨number, _, offset, format⟩ :: rest, 0, base, byte =>
    if 8 * byte + 8 ≤ base + offset then []
    else format.visits ⟨number, []⟩ (base + offset) byte ++ Format.fieldVisits rest 0 base byte

end

/-- The visits that byte `byte` of an encoded message takes. -/
def MessageFormat.visits (m : MessageFormat) (byte : Nat) : List Visit :=
  Format.fieldVisits m.fields.toList (m.endedBefore (8 * byte)) 0 byte

end Bitwire
