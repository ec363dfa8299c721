/-!
# JSON

The part of JSON that documents of this library use: there are no fractions.  A text may still hold
things that have no value here, and a reader may have to pass over them; they are all one value,
`foreign`, which no document reader accepts.
-/

namespace Bitwire

/-- A JSON value. -/
inductive Json where
  | null
  | bool (b : Bool)
  /-- An integer literal; `-0` is none. -/
  | int (v : Int)
  | str (s : String)
  | arr (items : List Json)
  /-- The members in the order of the text, repeated names included. -/
  | obj (members : List (String × Json))
  /-- A number that is no integer, a string with half a surrogate pair, or an object with such a
  string as a name. -/
  | foreign

instance : Inhabited Json := ⟨.null⟩

/-- A lexical unit of a JSON text. -/
inductive JsonToken where
  | openObject
  | closeObject
  | openArray
  | closeArray
  | comma
  | colon
  /-- A string; a string with half a surrogate pair has no text. -/
  | string (text : Option String)
  /-- A value that is a single unit and no string. -/
  | scalar (value : Json)

end Bitwire
