import Bitwire.Format
import Bitwire.Layout

/-!
# Wire types

The types that a schema can declare.  A wire type is checked when it is made and never changes
afterwards.  A message type carries the layout of its fields and its format, both computed once
when it is made.
-/

namespace Bitwire

/-- A named value of an enum. -/
structure EnumValue where
  name : String
  value : UInt64
deriving DecidableEq, Repr

/-- An enum carried by an unsigned integer of `bits` bits. -/
structure EnumType where
  name : String
  bits : Nat
  /-- Whether values that are not declared are expected; never changes the width. -/
  extensible : Bool
  fields : List EnumValue
deriving DecidableEq, Repr

/-- A field of a message; its number is what identifies it on the wire. -/
structure FieldOf (τ : Type) where
  number : UInt16
  name : String
  type : τ
deriving Repr

/-- A message type over field types `τ`. -/
structure MessageTypeOf (τ : Type) where
  name : String
  /-- The fields in the order of their declaration. -/
  fields : List (FieldOf τ)
  layout : Layout
  format : MessageFormat

/-- A type that a schema can declare. -/
inductive WireType where
  /-- One bit. -/
  | bool
  /-- A signed integer in two's complement. -/
  | int (bits : Nat)
  /-- An unsigned integer. -/
  | uint (bits : Nat)
  /-- Another name for a type. -/
  | aliased (name : String) (target : WireType)
  | enum (e : EnumType)
  /-- A sequence of fixed length. -/
  | array (element : WireType) (capacity : Nat)
  | message (m : MessageTypeOf WireType)

instance : Inhabited WireType := ⟨.bool⟩

/-- A field of a message type. -/
abbrev Field := FieldOf WireType

/-- A message type. -/
abbrev MessageType := MessageTypeOf WireType

/-- Refuses an integer width outside `1` to `64`. -/
def checkBits (bits : Nat) : Except SchemaError Unit :=
  if bits = 0 ∨ 64 < bits then .error (.invalidBitWidth bits) else .ok ()

namespace EnumType

/-- Checks the values of an enum one after the other, against its width and then against the names
and the values that stand before. -/
def checkValues (enumName : String) (bits : Nat) :
    (before : List EnumValue) → List EnumValue → Except SchemaError Unit
  | _, [] => .ok ()
  | before, f :: rest =>
    if !Pattern.fitsUnsigned f.value bits then
      .error (.enumValueOverflow enumName f.value bits)
    else if before.any (·.name == f.name) then .error (.duplicateEnumField enumName f.name)
    else if before.any (·.value == f.value) then .error (.duplicateEnumValue enumName f.value)
    else checkValues enumName bits (f :: before) rest

/-- Makes an enum type. -/
def make (name : String) (bits : Nat) (extensible : Bool) (fields : List EnumValue) :
    Except SchemaError EnumType := do
  checkBits bits
  checkValues name bits [] fields
  return ⟨name, bits, extensible, fields⟩

/-- Whether a value is declared. -/
def contains (e : EnumType) (value : UInt64) : Bool :=
  e.fields.any (·.value == value)

/-- The declared name of a value. -/
def nameOf? (e : EnumType) (value : UInt64) : Option String :=
  (e.fields.find? (·.value == value)).map EnumValue.name

/-- The format of an enum. -/
def format (e : EnumType) : EnumFormat :=
  .ofValues e.name e.bits e.extensible (e.fields.map EnumValue.value)

end EnumType

namespace WireType

/-- Makes a signed integer type. -/
def makeInt (bits : Nat) : Except SchemaError WireType := do
  checkBits bits
  return .int bits

/-- Makes an unsigned integer type. -/
def makeUint (bits : Nat) : Except SchemaError WireType := do
  checkBits bits
  return .uint bits

/-- Makes an array type. -/
def makeArray (element : WireType) (capacity : Nat) : Except SchemaError WireType :=
  if capacity = 0 then .error .invalidArrayCapacity else .ok (.array element capacity)

/-- How many bits a value occupies.  An array past the ceiling has the width of the ceiling, which
no message has room for. -/
def width : WireType → Nat
  | .bool => 1
  | .int bits => bits
  | .uint bits => bits
  | .aliased _ target => target.width
  | .enum e => e.bits
  | .array element capacity => min (element.width * capacity) Layout.widthCeiling
  | .message m => m.layout.totalBits

/-- The type behind all its aliases. -/
def resolve : WireType → WireType
  | .aliased _ target => target.resolve
  | t => t

/-- The name of a named type. -/
def name? : WireType → Option String
  | .aliased name _ => some name
  | .enum e => some e.name
  | .message m => some m.name
  | _ => none

/-- How many array levels lie above the first value that is no array, aliases looked through. -/
def arrayDepth : WireType → Nat
  | .aliased _ target => target.arrayDepth
  | .array element _ => element.arrayDepth + 1
  | _ => 0

/-- The format of a type: aliases are looked through, and a message type has its own at hand. -/
def format : WireType → Format
  | .bool => .bool
  | .int bits => .int bits
  | .uint bits => .uint bits
  | .aliased _ target => target.format
  | .enum e => .enum e.format
  | .array element capacity => .array element.format capacity
  | .message m => .message m.format

end WireType

namespace FieldOf

/-- The field with its width, ready to be placed. -/
def sized (f : Field) : SizedField :=
  ⟨f.number, f.name, f.type.width⟩

end FieldOf

namespace MessageType

/-- Refuses a field name that was used before. -/
def checkNames (message : String) :
    (before : List String) → List Field → Except SchemaError Unit
  | _, [] => .ok ()
  | before, f :: rest =>
    if before.contains f.name then .error (.duplicateFieldName message f.name)
    else checkNames message (f.name :: before) rest

/-- The formats of placed fields: each entry of a layout takes the format of the field of its
number. -/
def placedFormats (fields : List Field) (entries : List FieldLayout) : List FieldFormat :=
  entries.filterMap fun entry =>
    (fields.find? (·.number == entry.number)).map fun f =>
      ⟨entry.number, entry.name, entry.offset, f.type.format⟩

/-- Makes a message type.  Names are checked first, then numbers and size while the fields are
placed. -/
def make (name : String) (fields : List Field) : Except SchemaError MessageType := do
  checkNames name [] fields
  let layout ← Layout.compute name (fields.map FieldOf.sized)
  return ⟨name, fields, layout,
    .ofFields name (placedFormats fields layout.entries.toList)⟩

/-- How many bytes a message occupies. -/
def byteCount (m : MessageType) : Nat :=
  m.layout.byteCount

/-- The field numbered `number`. -/
def field? (m : MessageType) (number : UInt16) : Option Field :=
  m.fields.find? (·.number == number)

/-- The fields in ascending order of their numbers. -/
def sortedFields (m : MessageType) : List Field :=
  m.fields.mergeSort fun a b => decide (a.number ≤ b.number)

end MessageType

end Bitwire
