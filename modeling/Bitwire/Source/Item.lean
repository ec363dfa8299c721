import Bitwire.Schema.Definition
import Bitwire.Source.Expr
import Bitwire.Text.Quoted

/-!
# Items of generated source

What a generated module declares, each kind of item with the lines it is written in.
-/

namespace Bitwire

/-! ## Lines -/

namespace Lines

/-- Lines one level further in; empty lines stay empty. -/
def indent (lines : List String) : List String :=
  lines.map fun line => if line.isEmpty then line else "    " ++ line

/-- Lines between braces, the first of them behind `head`. -/
def braced (head : String) (body : List String) : List String :=
  (head ++ " \x7b") :: indent body ++ ["\x7d"]

/-- A line with an empty pair of braces. -/
def emptyBraces : String := "\x7b\x7d"

end Lines

/-! ## Accessor arms -/

/-- How a struct field gives out and takes in bytes. -/
inductive ArmKind where
  | bool
  | unsigned (integerType : String)
  | signed (bits : Nat) (integerType : String)
  | message
deriving DecidableEq, Repr

/-- The arm of an accessor for one field. -/
structure Arm where
  number : UInt16
  /-- The text of the place that is read or written. -/
  place : String
  kind : ArmKind
deriving DecidableEq, Repr

namespace Arm

/-- The arm for a field; a type that is no element type has none. -/
def ofField? (f : Field) : Option Arm :=
  let (leaf, place) := f.type.elementPlace ("self." ++ Identifier.ofField f.name) 0
  match leaf with
  | .bool => some ⟨f.number, place, .bool⟩
  | .uint bits => some ⟨f.number, place, .unsigned (Identifier.integerType false bits)⟩
  | .enum e => some ⟨f.number, place, .unsigned (Identifier.integerType false e.bits)⟩
  | .int bits => some ⟨f.number, place, .signed bits (Identifier.integerType true bits)⟩
  | .message _ => some ⟨f.number, place, .message⟩
  | _ => none

/-- Whether an arm leads to a nested message. -/
def isMessage (arm : Arm) : Bool :=
  arm.kind == .message

/-- The arm that reads a byte. -/
def getText (arm : Arm) : String :=
  s!"{arm.number} => bits::byte_at({arm.place} as u64, rshift),"

/-- The arm that adds a byte. -/
def setText (arm : Arm) : String :=
  match arm.kind with
  | .bool => s!"{arm.number} => {arm.place} = b != 0,"
  | .unsigned type =>
    s!"{arm.number} => {arm.place} = bits::or_unsigned({arm.place} as u64, lshift, b) as {type},"
  | .signed bits type =>
    s!"{arm.number} => {arm.place} = bits::or_signed({arm.place} as i64, {bits}, lshift, b) as {type},"
  | .message => ""

/-- The arm that gives out a nested message for reading. -/
def messageText (arm : Arm) : String :=
  s!"{arm.number} => Some(&{arm.place} as &dyn Accessor),"

/-- The arm that gives out a nested message for writing. -/
def messageMutText (arm : Arm) : String :=
  s!"{arm.number} => Some(&mut {arm.place} as &mut dyn Accessor),"

/-- A match on the field number, with what happens for a number that has no arm. -/
def matchLines (arms : List String) (fallback : String) : List String :=
  Lines.braced "match di.field_number()" (arms ++ [s!"_ => {fallback},"])

end Arm

/-! ## Items -/

/-- A field of a generated struct. -/
structure StructField where
  number : UInt16
  /-- The bits of the message that the field takes, if it has a place there. -/
  bits? : Option (Nat × Nat)
  ident : String
  type : TypeExpr
deriving DecidableEq, Repr

/-- A field of the format that a generated message builds. -/
structure FieldExpr where
  number : UInt16
  name : String
  offset : Nat
  format : FormatExpr
deriving DecidableEq, Repr

/-- A declaration of a generated module. -/
inductive Item where
  | constant (ident : String) (value : ConstantValue)
  | typeAlias (name : String) (type : TypeExpr)
  /-- A named value of an enum. -/
  | enumValue (ident enumName : String) (value : UInt64)
  /-- The function that gives the declared name of an enum value: constants with their names. -/
  | enumNames (function enumName : String) (arms : List (String × String))
  /-- The function that builds the format of an enum. -/
  | enumFormat (function enumName : String) (bits : Nat) (extensible : Bool) (values : List UInt64)
  /-- The constant that holds the size of a message in bytes. -/
  | byteCount (ident : String) (count : Nat)
  | struct (name : String) (totalBits : Nat) (fields : List StructField)
  /-- The default of a struct: its fields with their zero values. -/
  | structDefault (name : String) (fields : List (String × ZeroExpr))
  /-- The accessor of a struct. -/
  | accessor (name : String) (arms : List Arm)
  /-- The codec of a struct: its size and its format. -/
  | codec (name sizeIdent : String) (fields : List FieldExpr)

namespace Item

open Text (quoted)

/-- The identifier that an item adds to the values of its module. -/
def valueIdent? : Item → Option String
  | .constant ident _ => some ident
  | .enumValue ident _ _ => some ident
  | .enumNames function _ _ => some function
  | .enumFormat function _ _ _ _ => some function
  | .byteCount ident _ => some ident
  | _ => none

/-- The identifier that an item adds to the types of its module. -/
def typeIdent? : Item → Option String
  | .typeAlias name _ => some name
  | .struct name _ _ => some name
  | _ => none

/-- The written form of a constant. -/
def constantLine (ident : String) : ConstantValue → String
  | .bool b => s!"pub const {ident}: bool = {b};"
  | .int v => s!"pub const {ident}: i64 = {v};"
  | .string s => s!"pub const {ident}: &str = {quoted s};"

/-- The lines of a struct field. -/
def structFieldLines (f : StructField) : List String :=
  (match f.bits? with
    | some (start, stop) => [s!"/// Field {f.number}, bits {start}..{stop}."]
    | none => []) ++
  [s!"pub {f.ident}: {f.type.text},"]

/-- The lines of an accessor. -/
def accessorLines (name : String) (arms : List Arm) : List String :=
  let values := arms.filter (!·.isMessage)
  let messages := arms.filter (·.isMessage)
  let bytes :=
    if values.isEmpty then
      Lines.braced "fn get_byte(&self, _di: &DataIndexer, _rshift: i32) -> u8" ["0"] ++
        ["", "fn set_byte(&mut self, _di: &DataIndexer, _lshift: u32, _b: u8) " ++
          Lines.emptyBraces]
    else
      Lines.braced "fn get_byte(&self, di: &DataIndexer, rshift: i32) -> u8"
        (Arm.matchLines (values.map Arm.getText) "0") ++
      [""] ++
      Lines.braced "fn set_byte(&mut self, di: &DataIndexer, lshift: u32, b: u8)"
        (Arm.matchLines (values.map Arm.setText) Lines.emptyBraces)
  let nested :=
    if messages.isEmpty then []
    else
      [""] ++
      Lines.braced "fn message(&self, di: &DataIndexer) -> Option<&dyn Accessor>"
        (Arm.matchLines (messages.map Arm.messageText) "None") ++
      [""] ++
      Lines.braced "fn message_mut(&mut self, di: &DataIndexer) -> Option<&mut dyn Accessor>"
        (Arm.matchLines (messages.map Arm.messageMutText) "None")
  "#[allow(clippy::unnecessary_cast)]" ::
    Lines.braced s!"impl Accessor for {name}" (bytes ++ nested)

/-- The lines of a codec. -/
def codecLines (name sizeIdent : String) (fields : List FieldExpr) : List String :=
  let fieldLines := fields.map fun f =>
    s!"FieldProcessor::new({f.number}, {quoted f.name}, {f.offset}, {f.format.text}),"
  Lines.braced s!"impl BitMessage for {name}" <|
    [s!"const BYTES_LENGTH: usize = {sizeIdent};", ""] ++
    Lines.braced "fn processor() -> &'static Arc<MessageProcessor>"
      (["static PROCESSOR: LazyLock<Arc<MessageProcessor>> = LazyLock::new(|| \x7b"] ++
        Lines.indent
          (["Arc::new(MessageProcessor::new("] ++
            Lines.indent ([quoted name ++ ",", "vec!["] ++ Lines.indent fieldLines ++ ["],"]) ++
            ["))"]) ++
        ["\x7d);", "&PROCESSOR"])

/-- The lines of an item. -/
def lines : Item → List String
  | .constant ident value => [constantLine ident value]
  | .typeAlias name type => [s!"pub type {name} = {type.text};"]
  | .enumValue ident enumName value => [s!"pub const {ident}: {enumName} = {value};"]
  | .enumNames function enumName arms =>
    ("/// Declared name of a " ++ "`" ++ enumName ++ "` value.") ::
      Lines.braced s!"pub fn {function}(value: {enumName}) -> Option<&'static str>"
        (Lines.braced "match value"
          (arms.map (fun (ident, name) => s!"{ident} => Some({quoted name}),") ++ ["_ => None,"]))
  | .enumFormat function enumName bits extensible values =>
    let listed := String.intercalate ", " (values.map toString)
    Lines.braced s!"pub fn {function}() -> Processor"
      ["Processor::Enum(Arc::new(EnumProcessor::new(" ++ quoted enumName ++
        s!", {bits}, {extensible}, vec![{listed}])))"]
  | .byteCount ident count => [s!"pub const {ident}: usize = {count};"]
  | .struct name totalBits fields =>
    ["/// `" ++ name ++ s!"`: {totalBits} bits.", "#[derive(Debug, Clone, PartialEq, Eq)]"] ++
      Lines.braced s!"pub struct {name}" (fields.flatMap structFieldLines)
  | .structDefault name fields =>
    Lines.braced s!"impl Default for {name}"
      (Lines.braced "fn default() -> Self"
        (Lines.braced "Self" (fields.map fun (ident, zero) => s!"{ident}: {zero.text},")))
  | .accessor name arms => accessorLines name arms
  | .codec name sizeIdent fields => codecLines name sizeIdent fields

end Item

end Bitwire
