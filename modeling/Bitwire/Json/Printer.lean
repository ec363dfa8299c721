import Bitwire.Json.Basic
import Bitwire.Text.Quoted

/-!
# Writing JSON

Two layouts of the same text: compact, without any white space, and indented, with one member or
element on a line.  Controls are escaped, as are the quote and the backslash; all other characters
stand for themselves.
-/

namespace Bitwire

namespace Json

/-- A character as it stands in a string. -/
def escapedChar (c : Char) : String :=
  match c with
  | '"' => "\\\""
  | '\\' => "\\\\"
  | '\x08' => "\\b"
  | '\x0c' => "\\f"
  | '\n' => "\\n"
  | '\r' => "\\r"
  | '\t' => "\\t"
  | c =>
    if c.toNat < 0x10 then "\\u000" ++ Text.hex c.toNat
    else if c.toNat < 0x20 then "\\u00" ++ Text.hex c.toNat
    else c.toString

/-- A string between quotes. -/
def stringText (s : String) : String :=
  "\"" ++ String.join (s.toList.map escapedChar) ++ "\""

mutual

/-- The text of a value without white space. -/
def compact : Json → String
  | .null => "null"
  | .bool b => if b then "true" else "false"
  | .int v => toString v
  | .str s => stringText s
  | .arr items => "[" ++ String.intercalate "," (compactItems items) ++ "]"
  | .obj members => "\x7b" ++ String.intercalate "," (compactMembers members) ++ "\x7d"
  | .foreign => "null"

/-- The texts of the elements of an array. -/
def compactItems : List Json → List String
  | [] => []
  | item :: rest => item.compact :: compactItems rest

/-- The texts of the members of an object. -/
def compactMembers : List (String × Json) → List String
  | [] => []
  | (name, v) :: rest => (stringText name ++ ":" ++ v.compact) :: compactMembers rest

end

/-- The start of a line at a depth of nesting. -/
def newline (depth : Nat) : String :=
  "\n" ++ String.ofList (List.replicate (2 * depth) ' ')

/-- Texts between brackets, each on a line of its own; nothing between the brackets if there are
none. -/
def block (left right : String) (depth : Nat) (texts : List String) : String :=
  if texts.isEmpty then left ++ right
  else
    left ++ newline (depth + 1) ++ String.intercalate ("," ++ newline (depth + 1)) texts ++
      newline depth ++ right

mutual

/-- The text of a value that stands at a depth of nesting, one element or member on a line. -/
def prettyAt (depth : Nat) : Json → String
  | .arr items => block "[" "]" depth (prettyItems (depth + 1) items)
  | .obj members => block "\x7b" "\x7d" depth (prettyMembers (depth + 1) members)
  | v => v.compact

/-- The texts of the elements of an array. -/
def prettyItems (depth : Nat) : List Json → List String
  | [] => []
  | item :: rest => item.prettyAt depth :: prettyItems depth rest

/-- The texts of the members of an object. -/
def prettyMembers (depth : Nat) : List (String × Json) → List String
  | [] => []
  | (name, v) :: rest => (stringText name ++ ": " ++ v.prettyAt depth) :: prettyMembers depth rest

end

/-- The text of a value, one element or member on a line, indented by two blanks. -/
def pretty (v : Json) : String :=
  v.prettyAt 0

end Json

end Bitwire
