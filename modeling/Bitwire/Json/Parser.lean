import Bitwire.Json.Lexer

/-!
# Reading JSON

Builds the value of a text from its lexical units, one unit after the other, with a stack of the
arrays and objects that are still open.  The grammar is strict: no unit may be missing or follow
the value, and there is no limit to nesting.
-/

namespace Bitwire

namespace Json

/-- An array or object that is still open, with what was read of it, last first. -/
inductive Unfinished where
  | array (items : List Json)
  /-- `name` is the name of the member that is being read. -/
  | object (members : List (Option String × Json)) (name : Option String)

/-- What may come next. -/
inductive ReadState where
  /-- A value. -/
  | value (stack : List Unfinished)
  /-- A value, or the end of the array that was just opened. -/
  | firstItem (stack : List Unfinished)
  /-- The name of a member. -/
  | memberName (members : List (Option String × Json)) (stack : List Unfinished)
  /-- The name of a member, or the end of the object that was just opened. -/
  | firstName (stack : List Unfinished)
  /-- The colon behind the name of a member. -/
  | colon (members : List (Option String × Json)) (name : Option String) (stack : List Unfinished)
  /-- A comma, or the end of the innermost array or object. -/
  | separator (inner : Unfinished) (stack : List Unfinished)
  /-- Nothing: the value is complete. -/
  | done (value : Json)

namespace ReadState

/-- Goes on after a complete value. -/
def deliver (v : Json) : List Unfinished → ReadState
  | [] => .done v
  | .array items :: stack => .separator (.array (v :: items)) stack
  | .object members name :: stack => .separator (.object ((name, v) :: members) name) stack

/-- The object with the given members; names without a text make it one that no reader accepts. -/
def objectOf (members : List (Option String × Json)) : Json :=
  match members.mapM fun (name, v) => name.map (·, v) with
  | some members => .obj members
  | none => .foreign

/-- Starts a value. -/
def begin? (stack : List Unfinished) : JsonToken → Option ReadState
  | .openArray => some (.firstItem stack)
  | .openObject => some (.firstName stack)
  | .string (some s) => some (deliver (.str s) stack)
  | .string none => some (deliver .foreign stack)
  | .scalar v => some (deliver v stack)
  | _ => none

/-- Takes one unit. -/
def step? : ReadState → JsonToken → Option ReadState
  | .value stack, token => begin? stack token
  | .firstItem stack, .closeArray => some (deliver (.arr []) stack)
  | .firstItem stack, token => begin? (.array [] :: stack) token
  | .firstName stack, .closeObject => some (deliver (.obj []) stack)
  | .firstName stack, .string name => some (.colon [] name stack)
  | .memberName members stack, .string name => some (.colon members name stack)
  | .colon members name stack, .colon => some (.value (.object members name :: stack))
  | .separator (.array items) stack, .comma => some (.value (.array items :: stack))
  | .separator (.array items) stack, .closeArray => some (deliver (.arr items.reverse) stack)
  | .separator (.object members _) stack, .comma => some (.memberName members stack)
  | .separator (.object members _) stack, .closeObject =>
    some (deliver (objectOf members.reverse) stack)
  | _, _ => none

/-- Takes units until there are none left. -/
def run? : ReadState → List JsonToken → Option ReadState
  | state, [] => some state
  | state, token :: rest =>
    match state.step? token with
    | some state => state.run? rest
    | none => none

end ReadState

/-- The value of a text; nothing but white space may stand around it. -/
def parse? (text : String) : Option Json :=
  match JsonToken.ofChars? text.toList with
  | none => none
  | some tokens =>
    match (ReadState.value []).run? tokens with
    | some (.done v) => some v
    | _ => none

end Json

end Bitwire
