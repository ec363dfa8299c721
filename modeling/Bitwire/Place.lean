/-!
# Places

A place addresses a value inside one message: the number of a field and, if the field is an array,
one index per array level.  A message nested in another has places of its own, so a place never
speaks of enclosing messages.
-/

namespace Bitwire

/-- The address of a value inside one message. -/
structure Place where
  /-- Number of the field. -/
  field : UInt16
  /-- One index per array level entered, the outermost first. -/
  indices : List Nat := []
deriving DecidableEq, Repr, Inhabited

namespace Place

/-- The index at an array level, level 0 being the outermost. -/
def index? (place : Place) (level : Nat) : Option Nat :=
  place.indices[level]?

/-- The place of element `i` of the array at `place`. -/
def element (place : Place) (i : Nat) : Place :=
  { place with indices := place.indices ++ [i] }

end Place

end Bitwire
