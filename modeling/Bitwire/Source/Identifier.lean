import Bitwire.Text.Case

/-!
# Identifiers of generated source

Names of a schema become identifiers of Rust: constants in capitals, functions and fields in small
letters, words separated by underscores.  A field whose name is a keyword is written as a raw
identifier, and the few keywords that cannot be raw get an underscore.
-/

namespace Bitwire

namespace Identifier

/-- The keywords that may be written as raw identifiers, reserved ones included. -/
def keywords : List String :=
  ["abstract", "as", "async", "await", "become", "box", "break", "const", "continue", "do",
    "dyn", "else", "enum", "extern", "false", "final", "fn", "for", "gen", "if", "impl", "in",
    "let", "loop", "macro", "match", "mod", "move", "mut", "override", "priv", "pub", "ref",
    "return", "static", "struct", "trait", "true", "try", "type", "typeof", "unsafe", "unsized",
    "use", "virtual", "where", "while", "yield"]

/-- The keywords that may not be written as raw identifiers. -/
def reserved : List String :=
  ["crate", "self", "Self", "super"]

/-- Whether a word starts at a capital letter, given the characters before and after it: behind a
small letter or a digit, and behind a capital if a small letter follows. -/
def startsWord (before after : Option Char) : Bool :=
  match before with
  | none => false
  | some b =>
    Text.isLower b || b.isDigit || (Text.isUpper b && after.any Text.isLower)

/-- The characters of a name in small letters, words separated by underscores.  `before` is the
character that stands in front in the name, and `underscore` tells whether what was written so far
ends with an underscore. -/
def snakeChars : List Char → (before : Option Char) → (underscore : Bool) → List Char
  | [], _, _ => []
  | c :: rest, before, underscore =>
    if c = '-' ∨ c = ' ' then '_' :: snakeChars rest (some c) true
    else if !Text.isUpper c then c :: snakeChars rest (some c) (c == '_')
    else
      let small := Text.toLower c
      let after := snakeChars rest (some c) (small.getLast?.any (· == '_'))
      if startsWord before rest.head? && !underscore then '_' :: (small ++ after)
      else small ++ after

/-- A name in small letters, words separated by underscores. -/
def snakeCase (name : String) : String :=
  String.ofList (snakeChars name.toList none false)

/-- A name in capitals, words separated by underscores. -/
def upperSnakeCase (name : String) : String :=
  String.ofList ((snakeCase name).toList.flatMap Text.toUpper)

/-- The name of a field as an identifier. -/
def ofField (name : String) : String :=
  let ident := snakeCase name
  if reserved.contains ident then ident ++ "_"
  else if keywords.contains ident then "r#" ++ ident
  else ident

/-- The smallest integer type that holds `bits` bits. -/
def integerType (signed : Bool) (bits : Nat) : String :=
  (if signed then "i" else "u") ++
    (if bits ≤ 8 then "8" else if bits ≤ 16 then "16" else if bits ≤ 32 then "32" else "64")

end Identifier

end Bitwire
