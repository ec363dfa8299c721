import Bitwire.FieldPath
import Bitwire.Text.Quoted

/-!
# Errors of reading and writing messages
-/

namespace Bitwire

/-- What is wrong with the value of a field. -/
inductive ValidationError where
  /-- A record names a field that the message does not have. -/
  | unknownField (field : FieldPath)
  /-- A value is not of the kind that the field's type asks for. -/
  | typeMismatch (field : FieldPath) (expected : String)
  /-- An integer does not fit in the field's width. -/
  | valueOutOfRange (field : FieldPath) (value : Int) (bits : Nat)
  /-- An array has the wrong number of elements. -/
  | arrayLength (field : FieldPath) (expected actual : Nat)
  /-- A value is none of those that its enum declares. -/
  | unknownEnumValue (field : FieldPath) (enumName : String) (value : UInt64)
deriving DecidableEq, Repr

namespace ValidationError

/-- The error in words. -/
def message : ValidationError → String
  | .unknownField field => "unknown field " ++ Text.quoted field.text
  | .typeMismatch field expected => s!"field {field.text}: expected {expected}"
  | .valueOutOfRange field value bits =>
    s!"field {field.text}: value {value} does not fit in {bits} bits"
  | .arrayLength field expected actual =>
    s!"field {field.text}: expected {expected} elements, got {actual}"
  | .unknownEnumValue field enumName value =>
    s!"field {field.text}: unknown value {value} for enum {enumName}"

end ValidationError

/-- Why a message cannot be written or read. -/
inductive CodecError where
  /-- A buffer has fewer bytes than the message. -/
  | bufferTooShort (required actual : Nat)
  | validation (e : ValidationError)
deriving DecidableEq, Repr

namespace CodecError

/-- The error in words. -/
def message : CodecError → String
  | .bufferTooShort required actual =>
    s!"buffer too short: need {required} bytes, got {actual}"
  | .validation e => e.message

end CodecError

/-! ## Failures -/

/-- How an operation fails that asks for the memory of a message before it does anything else. -/
inductive Failure (ε : Type) where
  /-- It returns an error. -/
  | returned (e : ε)
  /-- An array of the message takes more bytes than can be asked for.  No error is returned: the
  program panics. -/
  | capacityOverflow
deriving DecidableEq, Repr

namespace Failure

/-- A failure with the error in another form. -/
def map {ε ε' : Type} (f : ε → ε') : Failure ε → Failure ε'
  | .returned e => .returned (f e)
  | .capacityOverflow => .capacityOverflow

/-- The outcome of an operation that asks for no memory. -/
def ofExcept {ε α : Type} : Except ε α → Except (Failure ε) α
  | .ok a => .ok a
  | .error e => .error (.returned e)

@[simp] theorem ofExcept_eq_ok_iff {ε α : Type} {result : Except ε α} {a : α} :
    ofExcept result = .ok a ↔ result = .ok a := by
  cases result <;> simp [ofExcept]

theorem ofExcept_eq_error_iff {ε α : Type} {result : Except ε α} {e : Failure ε} :
    ofExcept result = .error e ↔ ∃ e', result = .error e' ∧ e = .returned e' := by
  cases result <;> simp [ofExcept, eq_comm]

end Failure

end Bitwire
