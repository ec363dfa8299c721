import Bitwire.Json.Document
import Bitwire.Json.Library
import Bitwire.Schema.Definition

/-!
# Schema documents

Schema definitions as JSON.  A type reference is `"Bool"` or an object with one member that names
the kind of type; a constant is a boolean, a signed integer or a string; everything else is a
structure.
-/

namespace Bitwire

open DocumentReader

/-! ## Writing -/

namespace TypeRef

/-- A type reference as JSON. -/
def toJson : TypeRef → Json
  | .bool => .str "Bool"
  | .int bits => .obj [("Int", .int bits.toNat)]
  | .uint bits => .obj [("Uint", .int bits.toNat)]
  | .named name => .obj [("Named", .str name)]
  | .array element capacity =>
    .obj [("Array", .arr [element.toJson, .int capacity.toNat])]

/-- Reads a type reference.  The object that names the kind of type and the pair of an array both
count as nesting. -/
def ofJson? : (room : Nat) → Json → Option TypeRef
  | _, .str "Bool" => some .bool
  | _ + 1, .obj [("Bool", .null)] => some .bool
  | room + 1, .obj [("Int", j)] => (natural 256 room j).map fun n => .int (UInt8.ofNat n)
  | room + 1, .obj [("Uint", j)] => (natural 256 room j).map fun n => .uint (UInt8.ofNat n)
  | room + 1, .obj [("Named", j)] => (string room j).map .named
  | room + 2, .obj [("Array", .arr [element, capacity])] =>
    match ofJson? room element, natural UInt64.size room capacity with
    | some element, some capacity => some (.array element (UInt64.ofNat capacity))
    | _, _ => none
  | _, _ => none

end TypeRef

namespace ConstantValue

/-- The value of a constant as JSON. -/
def toJson : ConstantValue → Json
  | .bool b => .bool b
  | .int v => .int v.toInt
  | .string s => .str s

/-- Reads the value of a constant. -/
def ofJson? : DocumentReader ConstantValue
  | _, .bool b => some (.bool b)
  | room, .int v => (int64 room (.int v)).map .int
  | _, .str s => some (.string s)
  | _, _ => none

end ConstantValue

namespace SchemaDef

/-- A schema definition as JSON. -/
def toJson (d : SchemaDef) : Json :=
  .obj [("name", .str d.name),
    ("constants", .arr (d.constants.map fun c =>
      .obj [("name", .str c.name), ("value", c.value.toJson)])),
    ("aliases", .arr (d.aliases.map fun a =>
      .obj [("name", .str a.name), ("target", a.target.toJson)])),
    ("enums", .arr (d.enums.map fun e =>
      .obj [("name", .str e.name), ("bits", .int e.bits.toNat), ("extensible", .bool e.extensible),
        ("fields", .arr (e.fields.map fun f =>
          .obj [("name", .str f.name), ("value", .int f.value.toNat)]))])),
    ("messages", .arr (d.messages.map fun m =>
      .obj [("name", .str m.name),
        ("fields", .arr (m.fields.map fun f =>
          .obj [("number", .int f.number.toNat), ("name", .str f.name),
            ("type", f.type.toJson)]))]))]

/-! ## Reading -/

/-- Reads a constant. -/
def readConstant : DocumentReader ConstantDef :=
  structureOf ["name", "value"] fun room members => do
    let name ← required "name" string room members
    let value ← required "value" ConstantValue.ofJson? room members
    return ⟨name, value⟩

/-- Reads an alias. -/
def readAlias : DocumentReader AliasDef :=
  structureOf ["name", "target"] fun room members => do
    let name ← required "name" string room members
    let target ← required "target" TypeRef.ofJson? room members
    return ⟨name, target⟩

/-- Reads a named value of an enum. -/
def readEnumValue : DocumentReader EnumValueDef :=
  structureOf ["name", "value"] fun room members => do
    let name ← required "name" string room members
    let value ← required "value" (natural UInt64.size) room members
    return ⟨name, UInt64.ofNat value⟩

/-- Reads an enum. -/
def readEnum : DocumentReader EnumDef :=
  structureOf ["name", "bits", "extensible", "fields"] fun room members => do
    let name ← required "name" string room members
    let bits ← required "bits" (natural 256) room members
    let extensible ← optional "extensible" false bool room members
    let fields ← required "fields" (list readEnumValue) room members
    return ⟨name, UInt8.ofNat bits, extensible, fields⟩

/-- Reads a field of a message. -/
def readField : DocumentReader FieldDef :=
  structureOf ["number", "name", "type"] fun room members => do
    let number ← required "number" (natural UInt16.size) room members
    let name ← required "name" string room members
    let type ← required "type" TypeRef.ofJson? room members
    return ⟨UInt16.ofNat number, name, type⟩

/-- Reads a message. -/
def readMessage : DocumentReader MessageDef :=
  structureOf ["name", "fields"] fun room members => do
    let name ← required "name" string room members
    let fields ← required "fields" (list readField) room members
    return ⟨name, fields⟩

/-- Reads a schema definition; each of its members may be missing. -/
def read : DocumentReader SchemaDef :=
  structureOf ["name", "constants", "aliases", "enums", "messages"] fun room members => do
    let name ← optional "name" "" string room members
    let constants ← optional "constants" [] (list readConstant) room members
    let aliases ← optional "aliases" [] (list readAlias) room members
    let enums ← optional "enums" [] (list readEnum) room members
    let messages ← optional "messages" [] (list readMessage) room members
    return ⟨name, constants, aliases, enums, messages⟩

/-- The schema definition that a JSON value writes. -/
def ofJson? (j : Json) : Option SchemaDef :=
  read maxNesting j

/-- The library of this development for schema definitions. -/
def library : JsonLibrary SchemaDef :=
  .standard toJson ofJson?

/-- The text of a schema definition, indented. -/
def text? (lib : JsonLibrary SchemaDef) (d : SchemaDef) : Option String :=
  lib.pretty? d

/-- The schema definition that a text writes. -/
def parse? (lib : JsonLibrary SchemaDef) (text : String) : Option SchemaDef :=
  lib.read? text

end SchemaDef

end Bitwire
