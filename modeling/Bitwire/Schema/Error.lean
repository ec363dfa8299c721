import Bitwire.Text.Quoted

/-!
# Schema errors

Everything that can be wrong with a schema, found before any byte is written or read.
-/

namespace Bitwire

/-- What is wrong with a schema. -/
inductive SchemaError where
  /-- An integer or enum width outside `1` to `64`. -/
  | invalidBitWidth (bits : Nat)
  /-- An array without elements. -/
  | invalidArrayCapacity
  /-- Two fields of a message share a number. -/
  | duplicateFieldNumber (message : String) (number : UInt16)
  /-- Two fields of a message share a name. -/
  | duplicateFieldName (message name : String)
  /-- Two values of an enum share a name. -/
  | duplicateEnumField (enumName name : String)
  /-- Two names of an enum share a value. -/
  | duplicateEnumValue (enumName : String) (value : UInt64)
  /-- An enum value needs more bits than its enum has. -/
  | enumValueOverflow (enumName : String) (value : UInt64) (bits : Nat)
  /-- A message is larger than the largest message. -/
  | messageTooLarge (message : String) (bits : Nat)
  /-- A type name has no definition. -/
  | unresolvedType (name : String)
  /-- A definition refers back to itself. -/
  | cyclicType (name : String)
  /-- Two definitions share a name. -/
  | duplicateDefinition (name : String)
deriving DecidableEq, Repr, Inhabited

namespace SchemaError

open Text (quoted)

/-- The error in words. -/
def message : SchemaError → String
  | .invalidBitWidth bits => s!"invalid bit width {bits}: must be in 1..=64"
  | .invalidArrayCapacity => "array capacity must be at least 1"
  | .duplicateFieldNumber message number => s!"message {message}: duplicate field number {number}"
  | .duplicateFieldName message name =>
    s!"message {message}: duplicate field name " ++ quoted name
  | .duplicateEnumField enumName name => s!"enum {enumName}: duplicate field name " ++ quoted name
  | .duplicateEnumValue enumName value => s!"enum {enumName}: duplicate value {value}"
  | .enumValueOverflow enumName value bits =>
    s!"enum {enumName}: value {value} does not fit in {bits} bits"
  | .messageTooLarge message bits => s!"message {message} is too large: {bits} bits"
  | .unresolvedType name => "unresolved type " ++ quoted name
  | .cyclicType name => "cyclic type definition involving " ++ quoted name
  | .duplicateDefinition name => "duplicate definition " ++ quoted name

end SchemaError

end Bitwire
