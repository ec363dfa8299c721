import Bitwire.Event
import Bitwire.Schema.Definition
import Bitwire.Schema.WireType

/-!
# Resolving names

Turns the definitions of a schema into wire types.  A name is resolved when it is first needed, so
a definition may refer to later ones, and each name is resolved once.  While a name is being
resolved it is open; coming back to an open name means that its definition refers to itself.
-/

namespace Bitwire

/-- What resolving has come to. -/
structure ResolverState where
  /-- The types of the names resolved so far. -/
  resolved : List (String × WireType) := []
  /-- What was reported so far. -/
  events : List Event := []

/-- A step of resolving: it may fail, and keeps what was reported before it failed. -/
abbrev Resolve (α : Type) := ExceptT SchemaError (StateM ResolverState) α

namespace Resolve

/-- A step that needs nothing resolved. -/
def ofExcept {α : Type} : Except SchemaError α → Resolve α
  | .ok a => pure a
  | .error e => throw e

/-- The type of a reference, given the types of names. -/
def typeRef (named : String → Resolve WireType) : TypeRef → Resolve WireType
  | .bool => return .bool
  | .int bits => ofExcept (WireType.makeInt bits.toNat)
  | .uint bits => ofExcept (WireType.makeUint bits.toNat)
  | .named name => named name
  | .array element capacity => do
    let type ← typeRef named element
    ofExcept (WireType.makeArray type capacity.toNat)

/-- The fields of a message, given the types of names. -/
def fields (named : String → Resolve WireType) : List FieldDef → Resolve (List Field)
  | [] => return []
  | f :: rest => do
    let type ← typeRef named f.type
    return ⟨f.number, f.name, type⟩ :: (← fields named rest)

/-- The type that a definition makes, given the types of names. -/
def definition (named : String → Resolve WireType) : Definition → Resolve WireType
  | .aliasDef d => do
    let target ← typeRef named d.target
    return .aliased d.name target
  | .enumDef d => do
    let e ← ofExcept
      (EnumType.make d.name d.bits.toNat d.extensible (d.fields.map fun f => ⟨f.name, f.value⟩))
    return .enum e
  | .messageDef d => do
    let m ← ofExcept (MessageType.make d.name (← fields named d.fields))
    modify fun s => { s with events := s.events ++ [.layoutComputed m.name m.layout.totalBits] }
    return .message m

/-- The type of a name, while the names in `opened` are being resolved.  At most `depth` more names
can be opened; when that many definitions are left, every name that is still defined is open. -/
def name (d : SchemaDef) : (depth : Nat) → (opened : List String) → String → Resolve WireType
  | depth, opened, n => do
    match (← get).resolved.lookup n with
    | some type => return type
    | none =>
      match d.find? n, depth with
      | none, _ => throw (.unresolvedType n)
      | some _, 0 => throw (.cyclicType n)
      | some target, depth + 1 =>
        if opened.contains n then throw (.cyclicType n)
        let type ← definition (name d depth (n :: opened)) target
        modify fun s => { s with resolved := (n, type) :: s.resolved }
        return type

/-- The type of a name of a schema. -/
def root (d : SchemaDef) (n : String) : Resolve WireType :=
  name d d.definitions.length [] n

end Resolve

/-! ## Distinct names -/

namespace SchemaDef

/-- The first name of a list that occurs before in it or in `before`. -/
def firstRepeated? : (before names : List String) → Option String
  | _, [] => none
  | before, n :: rest => if before.contains n then some n else firstRepeated? (n :: before) rest

/-- Refuses two definitions of one name.  Constants share the names of the other definitions, and
are looked at last. -/
def checkDistinct (d : SchemaDef) : Except SchemaError Unit :=
  match firstRepeated? [] (d.definitions.map Definition.name ++ d.constants.map ConstantDef.name) with
  | some n => .error (.duplicateDefinition n)
  | none => .ok ()

end SchemaDef

end Bitwire
