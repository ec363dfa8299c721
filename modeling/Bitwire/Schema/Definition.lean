/-!
# Schema definitions

A schema as it is written down: aliases, enums, messages and constants, each list in the order of
declaration, with types referred to by name.
-/

namespace Bitwire

/-- A type as it is written in a definition. -/
inductive TypeRef where
  | bool
  | int (bits : UInt8)
  | uint (bits : UInt8)
  /-- An alias, an enum or a message of the same schema. -/
  | named (name : String)
  | array (element : TypeRef) (capacity : UInt64)
deriving DecidableEq, Repr, Inhabited

/-- Another name for a type. -/
structure AliasDef where
  name : String
  target : TypeRef
deriving DecidableEq, Repr

/-- A named value of an enum definition. -/
structure EnumValueDef where
  name : String
  value : UInt64
deriving DecidableEq, Repr

/-- An enum as it is written down. -/
structure EnumDef where
  name : String
  /-- Width of the unsigned integer that carries the values. -/
  bits : UInt8
  /-- Whether values that are not listed are expected. -/
  extensible : Bool := false
  fields : List EnumValueDef
deriving DecidableEq, Repr

/-- A field of a message definition; its number decides its place in the layout. -/
structure FieldDef where
  number : UInt16
  name : String
  type : TypeRef
deriving DecidableEq, Repr

/-- A message as it is written down, its fields in any order. -/
structure MessageDef where
  name : String
  fields : List FieldDef
deriving DecidableEq, Repr

/-- The value of a constant. -/
inductive ConstantValue where
  | bool (b : Bool)
  | int (v : Int64)
  | string (s : String)
deriving DecidableEq, Repr

/-- A named constant.  Constants have no part in the wire format. -/
structure ConstantDef where
  name : String
  value : ConstantValue
deriving DecidableEq, Repr

/-- A schema as it is written down. -/
structure SchemaDef where
  name : String := ""
  constants : List ConstantDef := []
  aliases : List AliasDef := []
  enums : List EnumDef := []
  messages : List MessageDef := []
deriving DecidableEq, Repr, Inhabited

/-- A definition that types can refer to. -/
inductive Definition where
  | aliasDef (d : AliasDef)
  | enumDef (d : EnumDef)
  | messageDef (d : MessageDef)
deriving DecidableEq, Repr

namespace Definition

/-- The name of a definition. -/
def name : Definition → String
  | .aliasDef d => d.name
  | .enumDef d => d.name
  | .messageDef d => d.name

end Definition

namespace SchemaDef

/-- The definitions that types can refer to: aliases, then enums, then messages. -/
def definitions (d : SchemaDef) : List Definition :=
  d.aliases.map .aliasDef ++ d.enums.map .enumDef ++ d.messages.map .messageDef

/-- The definition called `name`. -/
def find? (d : SchemaDef) (name : String) : Option Definition :=
  d.definitions.find? (·.name == name)

end SchemaDef

end Bitwire
