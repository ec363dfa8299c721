import Bitwire.Json.Basic

/-!
# Reading documents

A document reader takes a value apart.  It knows how many arrays and objects may still be opened
inside each other, and has no result for a value that does not fit.  A structure may be written as
an object, where unknown members are passed over and a known one may stand once, or as an array of
its members in their order, from the end of which optional ones may be missing.
-/

namespace Bitwire

/-- Reads a value in which at most `room` arrays and objects may be open at once. -/
abbrev DocumentReader (α : Type) := (room : Nat) → Json → Option α

namespace DocumentReader

/-- How many arrays and objects of a document may be open at once. -/
def maxNesting : Nat := 127

/-- Reads a boolean. -/
def bool : DocumentReader Bool
  | _, .bool b => some b
  | _, _ => none

/-- Reads a text. -/
def string : DocumentReader String
  | _, .str s => some s
  | _, _ => none

/-- Reads an integer from `lo` to below `hi`. -/
def integer (lo hi : Int) : DocumentReader Int
  | _, .int v => if lo ≤ v ∧ v < hi then some v else none
  | _, _ => none

/-- Reads an unsigned integer below `hi`. -/
def natural (hi : Nat) : DocumentReader Nat := fun room j =>
  (integer 0 hi room j).map Int.toNat

/-- Reads a signed integer of 64 bits. -/
def int64 : DocumentReader Int64 := fun room j =>
  (integer Int64.minValue.toInt (Int64.maxValue.toInt + 1) room j).map Int64.ofInt

/-- Reads the elements of an array. -/
def items {α : Type} (read : DocumentReader α) (room : Nat) : List Json → Option (List α)
  | [] => some []
  | item :: rest =>
    match read room item, items read room rest with
    | some a, some others => some (a :: others)
    | _, _ => none

/-- Reads an array. -/
def list {α : Type} (read : DocumentReader α) : DocumentReader (List α)
  | room + 1, .arr elements => items read room elements
  | _, _ => none

/-! ## Structures -/

/-- The members of a structure that are there, each with its name. -/
abbrev Members := List (String × Json)

/-- Whether no known name stands twice. -/
def distinctMembers (known : List String) : Members → Bool
  | [] => true
  | (name, _) :: rest =>
    (!known.contains name || !rest.any (·.1 == name)) && distinctMembers known rest

/-- Reads a structure whose members are called `known`, in this order. -/
def structureOf {α : Type} (known : List String) (read : (room : Nat) → Members → Option α) :
    DocumentReader α
  | room + 1, .obj members => if distinctMembers known members then read room members else none
  | room + 1, .arr elements =>
    if elements.length ≤ known.length then read room (known.zip elements) else none
  | _, _ => none

/-- Reads a member that has to be there. -/
def required {α : Type} (name : String) (read : DocumentReader α) (room : Nat)
    (members : Members) : Option α :=
  (members.lookup name).bind (read room)

/-- Reads a member that has a value of its own if it is missing. -/
def optional {α : Type} (name : String) (default : α) (read : DocumentReader α) (room : Nat)
    (members : Members) : Option α :=
  match members.lookup name with
  | some j => read room j
  | none => some default

end DocumentReader

end Bitwire
