import Bitwire.Json.Lexer
import Bitwire.Source.Item
import Mathlib

/-!
# Reading generated source

Generated source says what its formats are in three places: the functions that build the formats of
enums, the constants that hold the sizes of messages, and the codecs.  A reader finds these among
the lines of a text, whatever else the text holds, and makes out of them the items that they are
the text of.  It knows the language, not the writer: every literal is spelled out here again.
-/

namespace Bitwire

namespace SourceReader

/-! ## 1. Units -/

/-- What follows a fixed text. -/
def literal? (text : String) (cs : List Char) : Option (List Char) :=
  cs.dropPrefix? text.toList

/-- The characters at which a name ends. -/
def endsName (c : Char) : Bool :=
  ['\n', ' ', '(', ':', ';'].contains c

/-- A name up to a fixed text. -/
def nameBefore? (stop : String) (cs : List Char) : Option (String × List Char) :=
  (literal? stop (cs.dropWhile fun c => !endsName c)).map fun rest =>
    (String.ofList (cs.takeWhile fun c => !endsName c), rest)

/-- A number up to a fixed text. -/
def numberBefore? (stop : String) (cs : List Char) : Option (Nat × List Char) :=
  let digits := cs.takeWhile Char.isDigit
  if digits = [] then none
  else (literal? stop (cs.dropWhile Char.isDigit)).map fun rest =>
    (Nat.ofDigitChars 10 digits 0, rest)

/-- A truth value. -/
def bool? (cs : List Char) : Option (Bool × List Char) :=
  ((literal? "true" cs).map fun rest => (true, rest)) <|>
    ((literal? "false" cs).map fun rest => (false, rest))

/-- The character that a backslash and a letter stand for. -/
def escape? : Char → Option Char
  | '"' => some '"'
  | '\\' => some '\\'
  | 'n' => some '\n'
  | 'r' => some '\r'
  | 't' => some '\t'
  | '0' => some '\x00'
  | _ => none

/-- The characters of a quoted text up to its closing quote.  Inside of an escape by code point,
`code?` is the number that its digits have written so far. -/
def quotedChars? : (code? : Option Nat) → List Char → Option (List Char × List Char)
  | _, [] => none
  | some code, c :: rest =>
    if c = '\x7d' then (quotedChars? none rest).map fun (cs, rest) => (Char.ofNat code :: cs, rest)
    else
      match JsonToken.hexDigit? c with
      | some digit => quotedChars? (some (code * 16 + digit)) rest
      | none => none
  | none, '"' :: rest => some ([], rest)
  | none, '\\' :: 'u' :: '\x7b' :: rest => quotedChars? (some 0) rest
  | none, '\\' :: c :: rest =>
    match escape? c with
    | some c => (quotedChars? none rest).map fun (cs, rest) => (c :: cs, rest)
    | none => none
  | none, c :: rest => (quotedChars? none rest).map fun (cs, rest) => (c :: cs, rest)

/-- A quoted text. -/
def quoted? (cs : List Char) : Option (String × List Char) := do
  let rest ← literal? "\"" cs
  let (cs, rest) ← quotedChars? none rest
  return (String.ofList cs, rest)

/-- Numbers up to a closing bracket, each set apart from the next by a comma and a blank. -/
def numbers? : (number? : Option Nat) → List Char → Option (List Nat × List Char)
  | _, [] => none
  | n?, ']' :: rest => some (n?.toList, rest)
  | some n, ',' :: ' ' :: rest =>
    (numbers? none rest).map fun (ns, rest) => (n :: ns, rest)
  | n?, c :: rest =>
    if c.isDigit then numbers? (some (n?.getD 0 * 10 + (c.toNat - '0'.toNat))) rest else none

/-- An expression that builds a format, of at most so many nested arrays. -/
def formatExpr? : (arrays : Nat) → List Char → Option (FormatExpr × List Char)
  | arrays, cs =>
    match literal? "Processor::" cs with
    | none => (nameBefore? "()" cs).map fun (function, rest) => (.enumCall function, rest)
    | some cs =>
      ((literal? "Bool" cs).map fun rest => (.bool, rest)) <|>
      ((literal? "Int(" cs).bind fun rest =>
        (numberBefore? ")" rest).map fun (bits, rest) => (.int bits, rest)) <|>
      ((literal? "Uint(" cs).bind fun rest =>
        (numberBefore? ")" rest).map fun (bits, rest) => (.uint bits, rest)) <|>
      ((literal? "Message(Arc::clone(" cs).bind fun rest =>
        (nameBefore? "::processor()))" rest).map fun (name, rest) => (.message name, rest)) <|>
      match arrays with
      | 0 => none
      | arrays + 1 => do
        let rest ← literal? "array(" cs
        let (element, rest) ← formatExpr? arrays rest
        let rest ← literal? ", " rest
        let (capacity, rest) ← numberBefore? ")" rest
        return (.array element capacity, rest)

/-! ## 2. Lines -/

/-- A line that stands so many levels further in. -/
def indented : (levels : Nat) → List Char → List Char
  | 0, line => line
  | levels + 1, line => "    ".toList ++ indented levels line

/-- What a line says that stands so many levels further in. -/
def inner? : (levels : Nat) → List Char → Option (List Char)
  | 0, line => some line
  | levels + 1, line => (literal? "    " line).bind (inner? levels)

/-- The constant that holds the size of a message. -/
def byteCount? (line : List Char) : Option Item := do
  let rest ← literal? "pub const " line
  let (ident, rest) ← nameBefore? ": usize = " rest
  let (count, rest) ← numberBefore? ";" rest
  guard (rest = [])
  return .byteCount ident count

/-- A name that stands alone between two fixed texts. -/
def nameBetween? (start stop : String) (line : List Char) : Option String := do
  let rest ← literal? start line
  let (name, rest) ← nameBefore? stop rest
  guard (rest = [])
  return name

/-- The function that builds the format of an enum: its name and the line that says what it
builds. -/
def enumFormat? (function : String) (body : List Char) : Option Item := do
  let rest ← inner? 1 body
  let rest ← literal? "Processor::Enum(Arc::new(EnumProcessor::new(" rest
  let (enumName, rest) ← quoted? rest
  let rest ← literal? ", " rest
  let (bits, rest) ← numberBefore? ", " rest
  let (extensible, rest) ← bool? rest
  let rest ← literal? ", vec![" rest
  let (values, rest) ← numbers? none rest
  guard (rest = ")))".toList ∧ ∀ v ∈ values, v < UInt64.size)
  return .enumFormat function enumName bits extensible (values.map UInt64.ofNat)

/-- An entry of a codec. -/
def fieldExpr? (line : List Char) : Option FieldExpr := do
  let rest ← inner? 5 line
  let rest ← literal? "FieldProcessor::new(" rest
  let (number, rest) ← numberBefore? ", " rest
  let (name, rest) ← quoted? rest
  let rest ← literal? ", " rest
  let (offset, rest) ← numberBefore? ", " rest
  let (format, rest) ← formatExpr? rest.length rest
  guard (rest = "),".toList ∧ number < UInt16.size)
  return ⟨.ofNat number, name, offset, format⟩

/-- The entries of a codec, and the lines behind the line that ends them. -/
def fieldExprs? : List (List Char) → Option (List FieldExpr × List (List Char))
  | [] => none
  | line :: rest =>
    if line = indented 4 "],".toList then some ([], rest)
    else do
      let f ← fieldExpr? line
      let (fs, rest) ← fieldExprs? rest
      return (f :: fs, rest)

/-- The lines of a codec between its size and the name of its format. -/
def codecOpening : List (List Char) :=
  [[], indented 1 "fn processor() -> &'static Arc<MessageProcessor> \x7b".toList,
    indented 2 "static PROCESSOR: LazyLock<Arc<MessageProcessor>> = LazyLock::new(|| \x7b".toList,
    indented 3 "Arc::new(MessageProcessor::new(".toList]

/-- The lines of a codec behind its entries. -/
def codecClosing : List (List Char) :=
  [indented 3 "))".toList, indented 2 "\x7d);".toList, indented 2 "&PROCESSOR".toList,
    indented 1 "\x7d".toList, "\x7d".toList]

/-- The first of some lines, and the others. -/
def line? : List (List Char) → Option (List Char × List (List Char))
  | [] => none
  | line :: rest => some (line, rest)

/-- The name of the format that a codec builds. -/
def formatName? (line : List Char) : Option String := do
  let rest ← inner? 4 line
  let (name, rest) ← quoted? rest
  guard (rest = ",".toList)
  return name

/-- A codec: the name of its struct and the lines behind its first one.  The format that it builds
has to bear that name. -/
def codec? (name : String) (lines : List (List Char)) : Option Item := do
  let (size, lines) ← line? lines
  let sizeIdent ← (inner? 1 size).bind (nameBetween? "const BYTES_LENGTH: usize = " ";")
  let lines ← lines.dropPrefix? codecOpening
  let (title, lines) ← line? lines
  guard (formatName? title = some name)
  let lines ← lines.dropPrefix? [indented 4 "vec![".toList]
  let (fields, lines) ← fieldExprs? lines
  let _ ← lines.dropPrefix? codecClosing
  return .codec name sizeIdent fields

/-! ## 3. Texts -/

/-- The item that starts at the first of some lines. -/
def item? (head : List Char) (lines : List (List Char)) : Option Item :=
  byteCount? head <|>
  (do
    let function ← nameBetween? "pub fn " "() -> Processor \x7b" head
    let (body, _) ← line? lines
    enumFormat? function body) <|>
  (do
    let name ← nameBetween? "impl BitMessage for " " \x7b" head
    codec? name lines)

/-- The items that start at any of some lines. -/
def items : List (List Char) → List Item
  | [] => []
  | head :: rest => (item? head rest).toList ++ items rest

/-- What a text says about formats and sizes. -/
def read (source : String) : List Item :=
  items (source.toList.splitOn '\n')

end SourceReader

end Bitwire
