import Bitwire.Schema.Compile

/-!
# Shared formats

A definition that several types refer to is held once, at an address.  A builder of formats remembers
the formats of the enums and the messages that it has come across, by their addresses, and builds
each of them once.  One builder serves all messages of a schema.
-/

namespace Bitwire

/-- What a builder has built so far, the definitions being held at addresses `κ`. -/
structure FormatBuilder (κ : Type) where
  messages : List (κ × MessageFormat) := []
  enums : List (κ × EnumFormat) := []

/-- What is built with the help of a builder. -/
abbrev Building (κ : Type) := StateM (FormatBuilder κ)

/-- Where the definitions inside a type are held: the address of the definition with a name that the
numbers of fields lead to, outermost first. -/
abbrev Addresses (κ : Type) := (path : List UInt16) → (name : String) → κ

/-- Where the definitions inside a field are held. -/
def Addresses.field {κ : Type} (address : Addresses κ) (number : UInt16) : Addresses κ :=
  fun path name => address (number :: path) name

namespace FormatBuilder

variable {κ : Type} [DecidableEq κ]

/-- The format of the enum at an address. -/
def enumFormat (address : κ) (e : EnumType) : Building κ EnumFormat := do
  match (← get).enums.lookup address with
  | some format => return format
  | none =>
    modify fun b => { b with enums := (address, e.format) :: b.enums }
    return e.format

/-- Builds the formats of placed fields: each entry of a layout takes the field of its number. -/
def placedFields (builds : List (UInt16 × Building κ Format)) :
    List FieldLayout → Building κ (List FieldFormat)
  | [] => return []
  | entry :: rest =>
    match builds.find? (·.1 == entry.number) with
    | none => placedFields builds rest
    | some (_, build) => do
      let format ← build
      return ⟨entry.number, entry.name, entry.offset, format⟩ :: (← placedFields builds rest)

/-- The format of the message at an address, whose fields are built by `builds`. -/
def messageFormat (address : κ) (name : String) (layout : Layout)
    (builds : List (UInt16 × Building κ Format)) : Building κ MessageFormat := do
  match (← get).messages.lookup address with
  | some format => return format
  | none =>
    let fields ← placedFields builds layout.entries.toList
    let format := MessageFormat.ofFields name fields
    modify fun b => { b with messages := (address, format) :: b.messages }
    return format

mutual

/-- The format of a type. -/
def build : WireType → Addresses κ → Building κ Format
  | .bool, _ => return .bool
  | .int bits, _ => return .int bits
  | .uint bits, _ => return .uint bits
  | .aliased _ target, address => build target address
  | .enum e, address => return .enum (← enumFormat (address [] e.name) e)
  | .array element capacity, address => return .array (← build element address) capacity
  | .message ⟨name, fields, layout, _⟩, address =>
    return .message (← messageFormat (address [] name) name layout (fieldBuilds fields address))

/-- How the formats of fields are built, by their numbers. -/
def fieldBuilds : List Field → Addresses κ → List (UInt16 × Building κ Format)
  | [], _ => []
  | ⟨number, _, type⟩ :: rest, address =>
    (number, build type (address.field number)) :: fieldBuilds rest address

end

/-- The format of a message. -/
def message (m : MessageType) (address : Addresses κ) : Building κ MessageFormat :=
  messageFormat (address [] m.name) m.name m.layout (fieldBuilds m.fields address)

end FormatBuilder

namespace Schema

/-- Builds the formats of messages, one after the other.  In a schema a name has one definition. -/
def buildFormats : List MessageType → Building String (List MessageFormat)
  | [] => return []
  | m :: rest => return (← FormatBuilder.message m fun _ name => name) :: (← buildFormats rest)

/-- The formats of the messages of a schema, all of them built by one builder. -/
def formats (schema : Schema) : List MessageFormat :=
  ((buildFormats schema.messages).run {}).1

end Schema

end Bitwire
