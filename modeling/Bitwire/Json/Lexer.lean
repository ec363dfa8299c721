import Bitwire.Json.Basic

/-!
# Lexical units of JSON

Cuts a text into units.  White space is blank, tab, line feed and carriage return.  A string may
hold any character from blank up; its escapes are those of JSON, and a code point past 16 bits is
written as a pair of surrogates.  A number has no leading zero and no bare point or exponent.
-/

namespace Bitwire

namespace JsonToken

/-! ## Strings -/

/-- The value of a hexadecimal digit. -/
def hexDigit? (c : Char) : Option Nat :=
  if '0' ≤ c ∧ c ≤ '9' then some (c.toNat - '0'.toNat)
  else if 'a' ≤ c ∧ c ≤ 'f' then some (c.toNat - 'a'.toNat + 10)
  else if 'A' ≤ c ∧ c ≤ 'F' then some (c.toNat - 'A'.toNat + 10)
  else none

/-- The value of four hexadecimal digits. -/
def hexUnit? (a b c d : Char) : Option Nat :=
  match hexDigit? a, hexDigit? b, hexDigit? c, hexDigit? d with
  | some a, some b, some c, some d => some (((a * 16 + b) * 16 + c) * 16 + d)
  | _, _, _, _ => none

/-- The character that a one-letter escape stands for. -/
def simpleEscape? : Char → Option Char
  | '"' => some '"'
  | '\\' => some '\\'
  | '/' => some '/'
  | 'b' => some '\x08'
  | 'f' => some '\x0c'
  | 'n' => some '\n'
  | 'r' => some '\r'
  | 't' => some '\t'
  | _ => none

/-- The code points of a string, up to the closing quote, and what follows it.  A surrogate stands
for itself here. -/
def stringUnits : List Char → Option (List Nat × List Char)
  | [] => none
  | '"' :: rest => some ([], rest)
  | '\\' :: 'u' :: a :: b :: c :: d :: rest =>
    match hexUnit? a b c d, stringUnits rest with
    | some unit, some (units, after) => some (unit :: units, after)
    | _, _ => none
  | '\\' :: e :: rest =>
    match simpleEscape? e, stringUnits rest with
    | some c, some (units, after) => some (c.toNat :: units, after)
    | _, _ => none
  | c :: rest =>
    if c.toNat < 0x20 ∨ c = '\\' then none
    else
      match stringUnits rest with
      | some (units, after) => some (c.toNat :: units, after)
      | none => none

/-- Whether a code point is the first half of a surrogate pair. -/
def isHighSurrogate (unit : Nat) : Bool :=
  decide (0xd800 ≤ unit) && decide (unit < 0xdc00)

/-- Whether a code point is the second half of a surrogate pair. -/
def isLowSurrogate (unit : Nat) : Bool :=
  decide (0xdc00 ≤ unit) && decide (unit < 0xe000)

/-- Joins surrogate pairs; there is no text if a half stands alone. -/
def joinSurrogates : List Nat → Option (List Char)
  | [] => some []
  | [unit] =>
    if isHighSurrogate unit || isLowSurrogate unit then none else some [Char.ofNat unit]
  | high :: low :: rest =>
    if isHighSurrogate high then
      if isLowSurrogate low then
        (joinSurrogates rest).map
          (Char.ofNat (0x10000 + (high - 0xd800) * 0x400 + (low - 0xdc00)) :: ·)
      else none
    else if isLowSurrogate high then none
    else (joinSurrogates (low :: rest)).map (Char.ofNat high :: ·)

/-! ## Numbers -/

/-- The digits at the front of a text, and what follows them. -/
def digits (cs : List Char) : List Char × List Char :=
  cs.span Char.isDigit

/-- The number that decimal digits write. -/
def digitsValue (ds : List Char) : Nat :=
  ds.foldl (fun n d => n * 10 + (d.toNat - '0'.toNat)) 0

/-- Passes over the digits that have to stand at the front of a text. -/
def skipDigits? (cs : List Char) : Option (List Char) :=
  match digits cs with
  | ([], _) => none
  | (_, rest) => some rest

/-- Passes over an exponent, if there is one; tells whether there was. -/
def exponent? : List Char → Option (Bool × List Char)
  | c :: rest =>
    if c = 'e' ∨ c = 'E' then
      match rest with
      | '+' :: rest => (skipDigits? rest).map (true, ·)
      | '-' :: rest => (skipDigits? rest).map (true, ·)
      | rest => (skipDigits? rest).map (true, ·)
    else some (false, c :: rest)
  | [] => some (false, [])

/-- Passes over a fraction and an exponent, if they are there; tells whether one was. -/
def fraction? : List Char → Option (Bool × List Char)
  | '.' :: rest =>
    match skipDigits? rest with
    | some rest => (exponent? rest).map fun (_, rest) => (true, rest)
    | none => none
  | cs => exponent? cs

/-- The number that starts with a digit, and what follows it. -/
def unsigned? (negative : Bool) (cs : List Char) : Option (Json × List Char) :=
  let (ds, rest) := digits cs
  match ds with
  | [] => none
  | '0' :: _ :: _ => none
  | ds =>
    match fraction? rest with
    | none => none
    | some (true, rest) => some (.foreign, rest)
    | some (false, rest) =>
      let value := digitsValue ds
      if negative then
        some (if value = 0 then .foreign else .int (-(value : Int)), rest)
      else some (.int value, rest)

/-! ## Units -/

/-- The unit at the front of a text that starts with no white space, and what follows it. -/
def next? : List Char → Option (JsonToken × List Char)
  | '{' :: rest => some (.openObject, rest)
  | '}' :: rest => some (.closeObject, rest)
  | '[' :: rest => some (.openArray, rest)
  | ']' :: rest => some (.closeArray, rest)
  | ',' :: rest => some (.comma, rest)
  | ':' :: rest => some (.colon, rest)
  | '"' :: rest =>
    (stringUnits rest).map fun (units, rest) =>
      (.string ((joinSurrogates units).map String.ofList), rest)
  | 't' :: 'r' :: 'u' :: 'e' :: rest => some (.scalar (.bool true), rest)
  | 'f' :: 'a' :: 'l' :: 's' :: 'e' :: rest => some (.scalar (.bool false), rest)
  | 'n' :: 'u' :: 'l' :: 'l' :: rest => some (.scalar .null, rest)
  | '-' :: rest => (unsigned? true rest).map fun (v, rest) => (.scalar v, rest)
  | cs => (unsigned? false cs).map fun (v, rest) => (.scalar v, rest)

/-- Whether a character is white space between units. -/
def isBlank (c : Char) : Bool :=
  c == ' ' || c == '\n' || c == '\t' || c == '\r'

/-- The units of a text that is cut in at most `steps` steps, each of which takes a character. -/
def ofCharsIn : (steps : Nat) → List Char → Option (List JsonToken)
  | _, [] => some []
  | 0, _ :: _ => none
  | steps + 1, c :: rest =>
    if isBlank c then ofCharsIn steps rest
    else
      match next? (c :: rest) with
      | none => none
      | some (token, rest) => (ofCharsIn steps rest).map (token :: ·)

/-- The units of a text. -/
def ofChars? (cs : List Char) : Option (List JsonToken) :=
  ofCharsIn cs.length cs

end JsonToken

end Bitwire
