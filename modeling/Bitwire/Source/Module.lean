import Bitwire.Schema.Compile
import Bitwire.Source.Item

/-!
# Generated modules

A compiled schema as a Rust module.  Every message becomes a struct with one field per field of
the schema, an accessor with one arm per field, and a codec whose format is built on first use and
shared afterwards.  Enums become integer types with named constants.
-/

namespace Bitwire

/-- A generated module. -/
structure SourceModule where
  schemaName : String
  /-- The path of the codec that the module imports, if it declares anything that needs it. -/
  imports? : Option String
  /-- The items, in groups that are set apart by blank lines. -/
  groups : List (List Item)

namespace SourceModule

/-- The path of the codec that a module imports unless another is asked for. -/
def usualCodecPath : String := "bitproto"

/-! ## Building -/

/-- The items of an enum. -/
def enumGroups (e : EnumType) : List (List Item) :=
  let ident (f : EnumValue) := Identifier.upperSnakeCase f.name
  [[.typeAlias e.name (.named (Identifier.integerType false e.bits))],
    e.fields.map fun f => .enumValue (ident f) e.name f.value,
    [.enumNames (Identifier.snakeCase e.name ++ "_name") e.name
      (e.fields.map fun f => (ident f, f.name))],
    [.enumFormat (WireType.enumFunction e.name) e.name e.bits e.extensible
      (e.fields.map EnumValue.value)]]

/-- The identifier of the constant that holds the size of a message. -/
def sizeIdent (messageName : String) : String :=
  "BYTES_LENGTH_" ++ Identifier.upperSnakeCase messageName

/-- The items of a message. -/
def messageGroups (m : MessageType) : List (List Item) :=
  [[.byteCount (sizeIdent m.name) m.byteCount],
    [.struct m.name m.layout.totalBits (m.fields.map fun f =>
      ⟨f.number, (m.layout.get? f.number).map fun entry => (entry.offset, entry.stop),
        Identifier.ofField f.name, f.type.typeExpr⟩)],
    [.structDefault m.name (m.fields.map fun f => (Identifier.ofField f.name, f.type.zeroExpr))],
    [.accessor m.name (m.sortedFields.filterMap Arm.ofField?)],
    [.codec m.name (sizeIdent m.name) (m.sortedFields.map fun f =>
      ⟨f.number, f.name, (m.layout.offsetOf? f.number).getD 0, f.type.formatExpr⟩)]]

/-- The module of a schema.  `codecPath` is the path by which it reaches the codec. -/
def ofSchema (schema : Schema) (codecPath : String) : SourceModule where
  schemaName := schema.name
  imports? := if schema.enums.isEmpty && schema.messages.isEmpty then none else some codecPath
  groups :=
    [schema.constants.map fun c => .constant (Identifier.upperSnakeCase c.name) c.value,
      schema.aliases.map fun a => .typeAlias a.name a.target.typeExpr] ++
    schema.enums.flatMap enumGroups ++ schema.messages.flatMap messageGroups

/-- All items of a module. -/
def items (out : SourceModule) : List Item :=
  out.groups.flatten

/-! ## Text -/

/-- The lines in front of the items. -/
def headerLines (out : SourceModule) : List String :=
  ["// Code generated by bitproto-codegen. DO NOT EDIT."] ++
  (if out.schemaName.isEmpty then [] else ["// Schema: " ++ out.schemaName]) ++
  [""] ++
  match out.imports? with
  | none => []
  | some path =>
    ["#[allow(unused_imports)]", "use std::sync::\x7bArc, LazyLock\x7d;", "",
      "#[allow(unused_imports)]", "use " ++ path ++ "::\x7b",
      "    bits, Accessor, BitMessage, DataIndexer, EnumProcessor, FieldProcessor, MessageProcessor,",
      "    Processor,", "\x7d;", ""]

/-- The lines of a group of items: a blank line stands behind a group that has any. -/
def groupLines (group : List Item) : List String :=
  if group.isEmpty then [] else group.flatMap Item.lines ++ [""]

/-- The text of a module. -/
def text (out : SourceModule) : String :=
  String.join
    ((out.headerLines ++ out.groups.flatMap groupLines).map (· ++ "\n"))

end SourceModule

end Bitwire
