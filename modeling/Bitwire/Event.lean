import Bitwire.FieldPath
import Bitwire.Pattern

/-!
# Events

Operations report what they did as a list of events beside their result, in the order in which
things happened.  Nothing is written anywhere: whoever runs the operation decides what becomes of
the events.
-/

namespace Bitwire

/-- What an operation reports. -/
inductive Event where
  /-- A message type was built and its fields placed. -/
  | layoutComputed (message : String) (totalBits : Nat)
  /-- A schema was compiled. -/
  | schemaCompiled (schema : String) (aliases enums messages : Nat)
  /-- A message is about to be written to bytes. -/
  | encoding (message : String) (byteCount : Nat)
  /-- A message is about to be read from bytes. -/
  | decoding (message : String) (byteCount : Nat)
  /-- An enum value that its enum does not declare was let through. -/
  | unknownEnumTolerated (field : FieldPath) (enumName : String) (value : UInt64)
  /-- Source text is about to be generated for a schema. -/
  | sourceRendering (schema : String) (messages : Nat)
deriving DecidableEq, Repr

namespace Event

/-- How much detail an event carries. -/
inductive Level where
  | debug
  | trace
deriving DecidableEq, Repr

/-- The written name of a level. -/
def Level.name : Level → String
  | .debug => "DEBUG"
  | .trace => "TRACE"

/-- Moving a whole message is traced; everything else is debugging detail. -/
def level : Event → Level
  | .encoding .. | .decoding .. => .trace
  | _ => .debug

/-- The event as named texts, its message first. -/
def entries : Event → List (String × String)
  | .layoutComputed message totalBits =>
    [("message", "computed message layout"), ("message", message),
      ("total_bits", toString totalBits), ("nbytes", toString (Pattern.byteCount totalBits))]
  | .schemaCompiled schema aliases enums messages =>
    [("message", "compiled schema"), ("schema", schema), ("aliases", toString aliases),
      ("enums", toString enums), ("messages", toString messages)]
  | .encoding message byteCount =>
    [("message", "encoding"), ("message", message), ("nbytes", toString byteCount)]
  | .decoding message byteCount =>
    [("message", "decoding"), ("message", message), ("nbytes", toString byteCount)]
  | .unknownEnumTolerated field enumName value =>
    [("message", "tolerating unknown enum value"), ("field", field.text),
      ("enum_name", enumName), ("value", toString value.toNat)]
  | .sourceRendering schema messages =>
    [("message", "rendering rust source"), ("schema", schema), ("messages", toString messages)]

end Event

/-- A result together with the events reported on the way to it. -/
structure Logged (α : Type) where
  value : α
  events : List Event
deriving Repr, Inhabited

namespace Logged

/-- A result that nothing was reported for. -/
def silent {α : Type} (a : α) : Logged α := ⟨a, []⟩

/-- A result followed by one event. -/
def report {α : Type} (a : α) (event : Event) : Logged α := ⟨a, [event]⟩

/-- Goes on with a second operation; its events follow those of the first. -/
def andThen {α β : Type} (first : Logged α) (next : α → Logged β) : Logged β :=
  let second := next first.value
  ⟨second.value, first.events ++ second.events⟩

/-- Goes on with a second operation if the first succeeded. -/
def thenTry {ε α β : Type} (first : Logged (Except ε α)) (next : α → Logged (Except ε β)) :
    Logged (Except ε β) :=
  first.andThen fun
    | .ok a => next a
    | .error e => silent (.error e)

/-- Changes a result and keeps its events. -/
def map {α β : Type} (f : α → β) (logged : Logged α) : Logged β :=
  ⟨f logged.value, logged.events⟩

end Logged

end Bitwire
