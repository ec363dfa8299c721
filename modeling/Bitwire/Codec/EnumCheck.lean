import Bitwire.Codec.Accessor
import Bitwire.Codec.Error
import Bitwire.Event
import Bitwire.Format

/-!
# Checking enum values

Decoding accepts any value of an enum.  Whether a value that its enum does not declare is an error
is decided afterwards, for enums that are not extensible, and is up to the caller.  The check walks
over the message in order of the fields and, inside arrays, of the elements, and looks no further
than it has to: a caller that refuses such values learns of the first one only.
-/

namespace Bitwire

/-- What to do with a value that its enum does not declare. -/
inductive EnumPolicy where
  /-- Keep the value. -/
  | tolerate
  /-- Refuse the message. -/
  | reject
deriving DecidableEq, Repr

/-- Options of decoding.  The wire format itself has none. -/
structure CodecConfig where
  unknownEnum : EnumPolicy := .tolerate
deriving DecidableEq, Repr

namespace CodecConfig

/-- Options that refuse values which their enum does not declare. -/
def strict : CodecConfig := ⟨.reject⟩

end CodecConfig

/-- A value that its enum does not declare. -/
structure UnknownEnum where
  field : FieldPath
  enumName : String
  value : UInt64
deriving DecidableEq, Repr

namespace UnknownEnum

/-- The fault as an error. -/
def error (fault : UnknownEnum) : ValidationError :=
  .unknownEnumValue fault.field fault.enumName fault.value

/-- The fault as an event. -/
def event (fault : UnknownEnum) : Event :=
  .unknownEnumTolerated fault.field fault.enumName fault.value

end UnknownEnum

/-- Goes on after a fault: ends the check with it, or adds it to the faults met before. -/
def EnumPolicy.meet (policy : EnumPolicy) (met : Array UnknownEnum) (fault : UnknownEnum) :
    Except UnknownEnum (Array UnknownEnum) :=
  match policy with
  | .reject => .error fault
  | .tolerate => .ok (met.push fault)

/-! ## The check -/

section

variable {m : Type → Type} [Monad m] {α : Type}

namespace Accessor

/-- The pattern that is read byte by byte from byte `k` on, `count` bytes of it.  A shift is counted
modulo the width of a word: a ninth byte would be added to the first. -/
@[specialize]
def readBytes (A : Accessor m α) (s : α) (place : Place) : (count k : Nat) → UInt64 → m UInt64
  | 0, _, pattern => return pattern
  | count + 1, k, pattern => do
    let b ← A.getByte s place (8 * k : Nat)
    A.readBytes s place count (k + 1) (pattern ||| b.toUInt64 <<< UInt64.ofNat (8 * k))

/-- The bit pattern, `bits` wide, of the value at a place. -/
@[specialize]
def readPattern (A : Accessor m α) (s : α) (place : Place) (bits : Nat) : m UInt64 := do
  return Pattern.truncate (← A.readBytes s place (Pattern.byteCount bits) 0 0) bits

end Accessor

/-- Takes a step at every index from `i` on, `count` of them, each from what the one before has
come to.  The first step that fails is the last. -/
@[specialize]
def stepThrough {ε β : Type} (step : Nat → β → m (Except ε β)) :
    (count i : Nat) → β → m (Except ε β)
  | 0, _, b => return .ok b
  | count + 1, i, b => do
    match ← step i b with
    | .ok b => stepThrough step count (i + 1) b
    | .error e => return .error e

mutual

/-- Checks the enums in a value of a format, found at a place.  `met` are the faults met before;
the answer has the new ones behind them, or is the fault that ended the check.  Nothing behind that
fault is looked at, and nothing inside a nested message that is missing. -/
@[specialize]
def Format.checkEnums (A : Accessor m α) (policy : EnumPolicy) :
    Format → α → Place → FieldPath → (met : Array UnknownEnum) →
      m (Except UnknownEnum (Array UnknownEnum))
  | .enum e, s, place, path, met =>
    if e.extensible then return .ok met
    else do
      let value ← A.readPattern s place e.bits
      if e.contains value then return .ok met
      else return policy.meet met ⟨path, e.name, value⟩
  | .array element capacity, s, place, path, met =>
    stepThrough
      (fun i met => element.checkEnums A policy s (place.element i) (path.index i) met)
      capacity 0 met
  | .message ⟨_, ⟨fields⟩, _⟩, s, place, path, met => do
    match ← A.message? s place with
    | some child => Format.checkFieldEnums A policy fields child path met
    | none => return .ok met
  | .bool, _, _, _, met => return .ok met
  | .int _, _, _, _, met => return .ok met
  | .uint _, _, _, _, met => return .ok met

/-- Checks the enums in the fields of the message at `path`.  A field that holds none is not looked
at. -/
@[specialize]
def Format.checkFieldEnums (A : Accessor m α) (policy : EnumPolicy) :
    List FieldFormat → α → FieldPath → (met : Array UnknownEnum) →
      m (Except UnknownEnum (Array UnknownEnum))
  | [], _, _, met => return .ok met
  | ⟨number, name, _, format⟩ :: rest, s, path, met =>
    if format.hasClosedEnum then do
      match ← format.checkEnums A policy s ⟨number, []⟩ (path.field name) met with
      | .ok met => Format.checkFieldEnums A policy rest s path met
      | .error fault => return .error fault
    else Format.checkFieldEnums A policy rest s path met

end

namespace MessageFormat

/-- Checks the enum values of a message.  Under a policy that tolerates, every fault is reported as
an event and none is an error. -/
@[specialize]
def checkEnums (f : MessageFormat) (A : Accessor m α) (s : α) (policy : EnumPolicy) :
    m (Logged (Except ValidationError Unit)) := do
  match ← Format.checkFieldEnums A policy f.fields.toList s .root #[] with
  | .error fault => return .silent (.error fault.error)
  | .ok met => return ⟨.ok (), met.toList.map UnknownEnum.event⟩

/-- Runs the checks that the options ask for on a decoded message. -/
@[specialize]
def verify (f : MessageFormat) (A : Accessor m α) (s : α) (config : CodecConfig) :
    m (Logged (Except ValidationError Unit)) :=
  f.checkEnums A s config.unknownEnum

end MessageFormat

end

end Bitwire
