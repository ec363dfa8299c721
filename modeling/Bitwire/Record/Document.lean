import Bitwire.Codec.EnumCheck
import Bitwire.Json.Document
import Bitwire.Json.Library
import Bitwire.Record.Value

/-!
# Record documents

Records as JSON objects: booleans, integers, arrays and nested objects.  An integer that fits in 64
bits with a sign is read as a signed one, a larger one as an unsigned one.  Of several members of
one name the last counts.  Codec options have a document of their own.
-/

namespace Bitwire

namespace Value

mutual

/-- A value as JSON. -/
def toJson : Value → Json
  | .bool b => .bool b
  | .int v => .int v.toInt
  | .uint v => .int v.toNat
  | .array items => .arr (itemsToJson items)
  | .message entries => .obj (entriesToJson entries)

/-- The elements of an array as JSON. -/
def itemsToJson : List Value → List Json
  | [] => []
  | item :: rest => item.toJson :: itemsToJson rest

/-- The entries of a record as JSON. -/
def entriesToJson : List (String × Value) → List (String × Json)
  | [] => []
  | (name, value) :: rest => (name, value.toJson) :: entriesToJson rest

end

mutual

/-- Reads a value. -/
def ofJson? : Json → (room : Nat) → Option Value
  | .bool b, _ => some (.bool b)
  | .int v, _ =>
    if Int64.minValue.toInt ≤ v ∧ v ≤ Int64.maxValue.toInt then some (.int (Int64.ofInt v))
    else if 0 ≤ v ∧ v < UInt64.size then some (.uint (UInt64.ofNat v.toNat))
    else none
  | .arr items, room + 1 => (itemsOfJson? items room).map .array
  | .obj members, room + 1 =>
    (entriesOfJson? members room).map fun entries => .message (Record.ofList entries)
  | _, _ => none

/-- Reads the elements of an array. -/
def itemsOfJson? : List Json → (room : Nat) → Option (List Value)
  | [], _ => some []
  | item :: rest, room =>
    match ofJson? item room, itemsOfJson? rest room with
    | some value, some others => some (value :: others)
    | _, _ => none

/-- Reads the entries of a record. -/
def entriesOfJson? : List (String × Json) → (room : Nat) → Option (List (String × Value))
  | [], _ => some []
  | (name, j) :: rest, room =>
    match ofJson? j room, entriesOfJson? rest room with
    | some value, some others => some ((name, value) :: others)
    | _, _ => none

end

end Value

namespace Record

/-- A record as JSON. -/
def toJson (r : Record) : Json :=
  .obj (Value.entriesToJson r)

/-- The record that a JSON value writes; it has to be an object. -/
def ofJson? (j : Json) : Option Record :=
  (Value.ofJson? j DocumentReader.maxNesting).bind Value.asRecord?

/-- The library of this development for records. -/
def library : JsonLibrary Record :=
  .standard toJson ofJson?

/-- The text of a record, compact. -/
def text? (lib : JsonLibrary Record) (r : Record) : Option String :=
  lib.compact? r

/-- The record that a text writes. -/
def parse? (lib : JsonLibrary Record) (text : String) : Option Record :=
  lib.read? text

end Record

namespace EnumPolicy

/-- The written name of a policy. -/
def name : EnumPolicy → String
  | .tolerate => "Tolerate"
  | .reject => "Reject"

/-- The policy of a name. -/
def ofName? : String → Option EnumPolicy
  | "Tolerate" => some .tolerate
  | "Reject" => some .reject
  | _ => none

/-- Reads a policy: its name, or an object whose one member has that name and is null. -/
def ofJson? : DocumentReader EnumPolicy
  | _, .str name => ofName? name
  | _ + 1, .obj [(name, .null)] => ofName? name
  | _, _ => none

end EnumPolicy

namespace CodecConfig

/-- Options as JSON. -/
def toJson (config : CodecConfig) : Json :=
  .obj [("unknown_enum", .str config.unknownEnum.name)]

/-- The options that a JSON value writes; an option that is missing has its usual value. -/
def ofJson? (j : Json) : Option CodecConfig :=
  DocumentReader.structureOf ["unknown_enum"]
    (fun room members => do
      return ⟨← DocumentReader.optional "unknown_enum" .tolerate EnumPolicy.ofJson? room members⟩)
    DocumentReader.maxNesting j

/-- The library of this development for options. -/
def library : JsonLibrary CodecConfig :=
  .standard toJson ofJson?

/-- The options that a text writes. -/
def parse? (lib : JsonLibrary CodecConfig) (text : String) : Option CodecConfig :=
  lib.read? text

end CodecConfig

end Bitwire
