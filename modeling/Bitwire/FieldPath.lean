/-!
# Field paths

A field path names a value from the outermost message on, for error texts and events.  It is
written as the names of the fields joined by dots, each array index in brackets behind its field.
-/

namespace Bitwire

/-- The way from the outermost message to a value. -/
inductive FieldPath where
  /-- The path of the outermost message. -/
  | root
  /-- The path of the field called `name` of the message at `path`. -/
  | field (path : FieldPath) (name : String)
  /-- The path of element `i` of the array at `path`. -/
  | index (path : FieldPath) (i : Nat)
deriving DecidableEq, Repr, Inhabited

namespace FieldPath

/-- The written form of a path.  A dot stands between a name and whatever is written before it. -/
def text : FieldPath → String
  | root => ""
  | field path name =>
    let written := path.text
    if written.isEmpty then name else written ++ "." ++ name
  | index path i => path.text ++ "[" ++ toString i ++ "]"

end FieldPath

end Bitwire
