import Bitwire.Json.Parser
import Bitwire.Json.Printer

/-!
# Libraries for JSON

Documents go through a library that reads values of a type from texts and prints them, compact or
indented.  Which library that is, is left open: whoever reads or prints a document says.  One that
is made of the reader and the printers of this development is always at hand.
-/

namespace Bitwire

/-- What a library offers for the values of a type.  An outcome that is missing is an error. -/
structure JsonLibrary (α : Type) where
  /-- Reads a value from a text. -/
  read? (text : String) : Option α
  /-- Prints a value without white space. -/
  compact? (a : α) : Option String
  /-- Prints a value with one member or element on a line. -/
  pretty? (a : α) : Option String

/-- The library that reads and prints values as JSON values. -/
def JsonLibrary.standard {α : Type} (toJson : α → Json) (ofJson? : Json → Option α) :
    JsonLibrary α where
  read? text := (Json.parse? text).bind ofJson?
  compact? a := some (toJson a).compact
  pretty? a := some (toJson a).pretty

end Bitwire
