import Bitwire.Schema.WireType
import Bitwire.Source.Identifier

/-!
# Types and expressions of generated source

Three small languages: the type of a struct field, the expression for its zero value, and the
expression that builds its format.  Aliases and enums are types of their own in generated source;
values and formats look through aliases.
-/

namespace Bitwire

/-- A type in generated source. -/
inductive TypeExpr where
  | named (name : String)
  | array (element : TypeExpr) (capacity : Nat)
deriving DecidableEq, Repr

namespace TypeExpr

/-- The written form of a type. -/
def text : TypeExpr → String
  | .named name => name
  | .array element capacity => s!"[{element.text}; {capacity}]"

end TypeExpr

/-- An expression for a zero value. -/
inductive ZeroExpr where
  | bool
  | integer
  /-- An array all of whose elements are made by one expression. -/
  | array (element : ZeroExpr)
  /-- The default of a struct. -/
  | message (name : String)
deriving DecidableEq, Repr

namespace ZeroExpr

/-- The written form of a zero value. -/
def text : ZeroExpr → String
  | .bool => "false"
  | .integer => "0"
  | .array element => s!"std::array::from_fn(|_| {element.text})"
  | .message name => name ++ "::default()"

end ZeroExpr

/-- An expression that builds a format. -/
inductive FormatExpr where
  | bool
  | int (bits : Nat)
  | uint (bits : Nat)
  | array (element : FormatExpr) (capacity : Nat)
  /-- A call of the function that builds the format of an enum. -/
  | enumCall (function : String)
  /-- The shared format of a struct. -/
  | message (name : String)
deriving DecidableEq, Repr

namespace FormatExpr

/-- The written form of an expression that builds a format. -/
def text : FormatExpr → String
  | .bool => "Processor::Bool"
  | .int bits => s!"Processor::Int({bits})"
  | .uint bits => s!"Processor::Uint({bits})"
  | .array element capacity => s!"Processor::array({element.text}, {capacity})"
  | .enumCall function => function ++ "()"
  | .message name => "Processor::Message(Arc::clone(" ++ name ++ "::processor()))"

end FormatExpr

namespace WireType

/-- The type of a field or the target of an alias. -/
def typeExpr : WireType → TypeExpr
  | .bool => .named "bool"
  | .int bits => .named (Identifier.integerType true bits)
  | .uint bits => .named (Identifier.integerType false bits)
  | .aliased name _ => .named name
  | .enum e => .named e.name
  | .array element capacity => .array element.typeExpr capacity
  | .message m => .named m.name

/-- The zero value of a type. -/
def zeroExpr : WireType → ZeroExpr
  | .bool => .bool
  | .aliased _ target => target.zeroExpr
  | .array element _ => .array element.zeroExpr
  | .message m => .message m.name
  | _ => .integer

/-- The name of the function that builds the format of an enum. -/
def enumFunction (enumName : String) : String :=
  Identifier.snakeCase enumName ++ "_processor"

/-- The expression that builds the format of a type. -/
def formatExpr : WireType → FormatExpr
  | .bool => .bool
  | .int bits => .int bits
  | .uint bits => .uint bits
  | .aliased _ target => target.formatExpr
  | .enum e => .enumCall (enumFunction e.name)
  | .array element capacity => .array element.formatExpr capacity
  | .message m => .message m.name

/-- The type behind all array levels of a type, and the text of a place of that type: `place`,
indexed once per level from `level` on. -/
def elementPlace : WireType → (place : String) → (level : Nat) → WireType × String
  | .aliased _ target, place, level => target.elementPlace place level
  | .array element _, place, level =>
    element.elementPlace (place ++ s!"[di.index({level})]") (level + 1)
  | t, place, _ => (t, place)

end WireType

end Bitwire
