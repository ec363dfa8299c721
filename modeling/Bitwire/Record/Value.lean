/-!
# Values and records

A value is what a field holds; a record gives values to fields by name.  Records keep their names
in ascending order and each name once, so two records with the same entries are equal.
-/

namespace Bitwire

/-- The value of a field. -/
inductive Value where
  | bool (b : Bool)
  | int (v : Int64)
  | uint (v : UInt64)
  | array (items : List Value)
  /-- A nested message: the values of its fields by name. -/
  | message (entries : List (String × Value))

instance : Inhabited Value := ⟨.bool false⟩

/-- The values of the fields of a message, in ascending order of the names. -/
abbrev Record := List (String × Value)

namespace Record

/-- Gives a value to a field; a value that the field had before is replaced. -/
def insert (name : String) (value : Value) : Record → Record
  | [] => [(name, value)]
  | (name', value') :: rest =>
    if name < name' then (name, value) :: (name', value') :: rest
    else if name = name' then (name, value) :: rest
    else (name', value') :: insert name value rest

/-- The record with the given entries; of several entries of one name the last counts. -/
def ofList (entries : List (String × Value)) : Record :=
  entries.foldl (fun r (name, value) => r.insert name value) []

/-- The value of a field. -/
def get? (r : Record) (name : String) : Option Value :=
  r.lookup name

end Record

namespace Value

/-- The value as a boolean. -/
def asBool? : Value → Option Bool
  | .bool b => some b
  | _ => none

/-- The number that an integer value stands for. -/
def asInt? : Value → Option Int
  | .int v => some v.toInt
  | .uint v => some v.toNat
  | _ => none

/-- The value as a signed integer; an unsigned one counts if it fits. -/
def asSigned? (value : Value) : Option Int64 :=
  value.asInt?.bind fun v =>
    if Int64.minValue.toInt ≤ v ∧ v ≤ Int64.maxValue.toInt then some (Int64.ofInt v) else none

/-- The value as an unsigned integer; a signed one counts if it is not negative. -/
def asUnsigned? (value : Value) : Option UInt64 :=
  value.asInt?.bind fun v =>
    if 0 ≤ v ∧ v < UInt64.size then some (UInt64.ofNat v.toNat) else none

/-- The value as a list of elements. -/
def asArray? : Value → Option (List Value)
  | .array items => some items
  | _ => none

/-- The value as a record. -/
def asRecord? : Value → Option Record
  | .message entries => some entries
  | _ => none

end Value

end Bitwire
