import Bitwire.Text.Unprintable

/-!
# Quoted text

Names in error texts and string literals in generated source are written between double quotes.  A
quote and a backslash are escaped by a backslash, the common controls have a letter of their own,
and any other unprintable character is written by its code point in lower-case hexadecimal.
-/

namespace Bitwire

namespace Text

/-- The digits of a number in lower-case hexadecimal. -/
def hex (n : Nat) : String :=
  String.ofList (Nat.toDigits 16 n)

/-- A character as it stands between double quotes. -/
def quotedChar (c : Char) : String :=
  match c with
  | '"' => "\\\""
  | '\\' => "\\\\"
  | '\n' => "\\n"
  | '\r' => "\\r"
  | '\t' => "\\t"
  | '\x00' => "\\0"
  | c => if isUnprintable c then "\\u\x7b" ++ hex c.toNat ++ "\x7d" else c.toString

/-- A text between double quotes. -/
def quoted (s : String) : String :=
  "\"" ++ String.join (s.toList.map quotedChar) ++ "\""

end Text

end Bitwire
