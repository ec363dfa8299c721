import Bitwire.Record.Dynamic
import Bitwire.Schema.Resolve

/-!
# Compiled schemas

Compiling checks a schema definition and turns its names into types.  The result lists the
aliases, enums and messages in the order of declaration, and reads and writes records of its
messages.
-/

namespace Bitwire

/-- An alias of a compiled schema. -/
structure AliasType where
  name : String
  target : WireType

/-- A schema all of whose definitions are sound. -/
structure Schema where
  name : String
  constants : List ConstantDef
  aliases : List AliasType
  enums : List EnumType
  messages : List MessageType

namespace Schema

/-- Resolves the aliases of a schema in the order of declaration. -/
def resolveAliases (d : SchemaDef) : List AliasDef → Resolve (List AliasType)
  | [] => return []
  | a :: rest => do
    match ← Resolve.root d a.name with
    | .aliased name target => return ⟨name, target⟩ :: (← resolveAliases d rest)
    | _ => resolveAliases d rest

/-- Resolves the enums of a schema in the order of declaration. -/
def resolveEnums (d : SchemaDef) : List EnumDef → Resolve (List EnumType)
  | [] => return []
  | e :: rest => do
    match ← Resolve.root d e.name with
    | .enum type => return type :: (← resolveEnums d rest)
    | _ => resolveEnums d rest

/-- Resolves the messages of a schema in the order of declaration. -/
def resolveMessages (d : SchemaDef) : List MessageDef → Resolve (List MessageType)
  | [] => return []
  | m :: rest => do
    match ← Resolve.root d m.name with
    | .message type => return type :: (← resolveMessages d rest)
    | _ => resolveMessages d rest

/-- Resolves all definitions of a schema: aliases, then enums, then messages. -/
def resolveAll (d : SchemaDef) : Resolve Schema := do
  Resolve.ofExcept d.checkDistinct
  let aliases ← resolveAliases d d.aliases
  let enums ← resolveEnums d d.enums
  let messages ← resolveMessages d d.messages
  modify fun s =>
    { s with
      events := s.events ++ [.schemaCompiled d.name aliases.length enums.length messages.length] }
  return ⟨d.name, d.constants, aliases, enums, messages⟩

/-- Compiles a schema; fails on the first definition that is not sound. -/
def compile (d : SchemaDef) : Logged (Except SchemaError Schema) :=
  let (result, state) := (resolveAll d).run.run {}
  ⟨result, state.events⟩

/-- The message called `name`. -/
def message? (schema : Schema) (name : String) : Option MessageType :=
  schema.messages.find? (·.name == name)

/-- The enum called `name`. -/
def enum? (schema : Schema) (name : String) : Option EnumType :=
  schema.enums.find? (·.name == name)

/-- The alias called `name`. -/
def alias? (schema : Schema) (name : String) : Option AliasType :=
  schema.aliases.find? (·.name == name)

end Schema

/-! ## Reading and writing records -/

namespace MessageType

/-- Encodes a record.  Fields that the record leaves out are zero. -/
def encode (m : MessageType) (r : Record) : Logged (Except (Failure CodecError) (List UInt8)) :=
  match DynamicMessage.ofRecord m.format r with
  | .error e => .silent (.error (e.map .validation))
  | .ok msg => (m.format.encode DynamicMessage.accessor msg : Id _).run.map .ok

/-- The message at the front of `data`, before its enums are checked. -/
def decoded (m : MessageType) (data : List UInt8) :
    Logged (Except (Failure CodecError) DynamicMessage) :=
  match DynamicMessage.zeroed m.format with
  | .error e => .silent (.error e)
  | .ok msg =>
    (m.format.decodeInto DynamicMessage.accessor msg data : Id _).run.map Failure.ofExcept

/-- Decodes a record from the front of `data`.  Every field is in the result. -/
def decode (m : MessageType) (data : List UInt8) (config : CodecConfig := {}) :
    Logged (Except (Failure CodecError) Record) :=
  (m.decoded data).thenTry fun msg =>
    (m.format.verify DynamicMessage.accessor msg config : Id _).run.map fun
      | .ok () => .ok msg.toRecord
      | .error e => .error (.returned (.validation e))

end MessageType

end Bitwire
