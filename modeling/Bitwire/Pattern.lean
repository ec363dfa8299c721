/-!
# Bit patterns

A field's value is handled as its unsigned bit pattern of the declared width; a signed value is
held in two's complement.  Stream bit `i` lives in byte `i / 8` at position `i % 8`, position 0
being the least significant bit.  This module holds the arithmetic on one 64-bit pattern: cutting
it to a width, taking a byte out of it, and adding a byte to it.
-/

namespace Bitwire

namespace Pattern

/-- The pattern whose low `bits` bits are set; a width past 64 asks for all of them. -/
def mask (bits : Nat) : UInt64 :=
  UInt64.ofNat ((1 <<< min bits 64) - 1)

/-- The low `bits` bits of a pattern. -/
def truncate (p : UInt64) (bits : Nat) : UInt64 :=
  p &&& mask bits

/-- The signed value whose two's complement in `bits` bits is the low `bits` bits of `p`. -/
def signExtend (p : UInt64) (bits : Nat) : Int64 :=
  Int64.ofInt (Int.bmod p.toNat (1 <<< min bits 64))

/-- The two's complement of `v`, cut to `bits` bits. -/
def ofSigned (v : Int64) (bits : Nat) : UInt64 :=
  truncate v.toUInt64 bits

/-- Bits `shift` to `shift + 7` of a pattern.  A negative shift moves the pattern up, which
happens when a value starts inside the byte. -/
def byteAt (p : UInt64) (shift : Int) : UInt8 :=
  if 64 ≤ shift ∨ shift ≤ -8 then 0
  else if 0 ≤ shift then (p >>> UInt64.ofNat shift.toNat).toUInt8
  else (p <<< UInt64.ofNat (-shift).toNat).toUInt8

/-- Adds the bits of `b`, moved up by `shift`, to a pattern; bits past the top are lost. -/
def orByte (p : UInt64) (shift : Nat) (b : UInt8) : UInt64 :=
  if 64 ≤ shift then p else p ||| (b.toUInt64 <<< UInt64.ofNat shift)

/-- Adds the bits of `b`, moved up by `shift`, to the two's complement of `v` in `bits` bits. -/
def orByteSigned (v : Int64) (bits shift : Nat) (b : UInt8) : Int64 :=
  signExtend (orByte (ofSigned v bits) shift b) bits

/-- The byte whose `count` bits from position `start` on are set. -/
def byteMask (start count : Nat) : UInt8 :=
  UInt8.ofNat (((1 <<< count) - 1) <<< start)

/-- How many bytes hold `bits` bits. -/
def byteCount (bits : Nat) : Nat :=
  (bits + 7) / 8

/-- Whether a pattern has no bit at or above `bits`. -/
def fitsUnsigned (p : UInt64) (bits : Nat) : Bool :=
  p &&& ~~~mask bits == 0

/-- Whether a signed value survives being cut to `bits` bits. -/
def fitsSigned (v : Int64) (bits : Nat) : Bool :=
  signExtend (ofSigned v bits) bits == v

end Pattern

end Bitwire
