import Bitwire.Source.Module

/-!
# Distinct identifiers

Different names of a schema may become one identifier.  The check goes through everything that a
schema declares, in the order constants, aliases, enums with their values, messages with their
fields, and stops at the first identifier that was taken before.  Types, values and the fields of
each message are name spaces of their own.
-/

namespace Bitwire

/-- Two items of a schema have one identifier. -/
structure DuplicateIdent where
  ident : String
  /-- The item that took the identifier. -/
  first : String
  /-- The item that needs it as well. -/
  second : String
deriving DecidableEq, Repr

namespace DuplicateIdent

/-- The error in words. -/
def message (e : DuplicateIdent) : String :=
  e.first ++ " and " ++ e.second ++ " both generate the identifier `" ++ e.ident ++ "`"

end DuplicateIdent

/-- The name spaces of a generated module. -/
inductive NameSpace where
  | types
  | values
  /-- The fields of the message that stands at a position among the messages. -/
  | fields (message : Nat)
deriving DecidableEq, Repr

/-- An identifier that an item of a schema needs. -/
structure Claim where
  space : NameSpace
  ident : String
  /-- The item, in words. -/
  source : String
deriving DecidableEq, Repr

namespace Claim

/-- What an enum needs. -/
def ofEnum (e : EnumType) : List Claim :=
  let source := "enum `" ++ e.name ++ "`"
  [⟨.types, e.name, source⟩, ⟨.values, Identifier.snakeCase e.name ++ "_name", source⟩,
    ⟨.values, WireType.enumFunction e.name, source⟩] ++
  e.fields.map fun f =>
    ⟨.values, Identifier.upperSnakeCase f.name, "enum value `" ++ e.name ++ "." ++ f.name ++ "`"⟩

/-- What the message at a position needs. -/
def ofMessage (position : Nat) (m : MessageType) : List Claim :=
  let source := "message `" ++ m.name ++ "`"
  [⟨.types, m.name, source⟩, ⟨.values, SourceModule.sizeIdent m.name, source⟩] ++
  m.fields.map fun f =>
    ⟨.fields position, Identifier.ofField f.name, "field `" ++ m.name ++ "." ++ f.name ++ "`"⟩

/-- What a schema needs, in the order in which it is checked. -/
def ofSchema (schema : Schema) : List Claim :=
  (schema.constants.map fun c =>
    ⟨.values, Identifier.upperSnakeCase c.name, "constant `" ++ c.name ++ "`"⟩) ++
  (schema.aliases.map fun a => ⟨.types, a.name, "alias `" ++ a.name ++ "`"⟩) ++
  schema.enums.flatMap ofEnum ++
  schema.messages.zipIdx.flatMap fun (m, i) => ofMessage i m

/-- The first claim for an identifier that was claimed before in the same name space. -/
def firstConflict? : (before claims : List Claim) → Option DuplicateIdent
  | _, [] => none
  | before, c :: rest =>
    match before.find? fun b => b.space == c.space && b.ident == c.ident with
    | some b => some ⟨c.ident, b.source, c.source⟩
    | none => firstConflict? (c :: before) rest

end Claim

namespace Schema

/-- The generated source of a schema, if no two of its items need one identifier. -/
def render (schema : Schema) (codecPath : String) : Logged (Except DuplicateIdent String) :=
  match Claim.firstConflict? [] (Claim.ofSchema schema) with
  | some e => .silent (.error e)
  | none =>
    .report (.ok (SourceModule.ofSchema schema codecPath).text)
      (.sourceRendering schema.name schema.messages.length)

end Schema

end Bitwire
