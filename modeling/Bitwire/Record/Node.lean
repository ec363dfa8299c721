import Bitwire.Codec.Error
import Bitwire.Format
import Bitwire.Record.Value

/-!
# Stored values

A message that is known only by its format is stored as a tree of bit patterns.  The tree has the
shape of the format: a pattern for every value, a node for every element of an array, and a node
for every field of a nested message, in the order of the format's fields.
-/

namespace Bitwire

/-- The stored form of a value. -/
inductive Node where
  /-- The bit pattern of a boolean, an integer or an enum. -/
  | leaf (pattern : UInt64)
  | array (items : Array Node)
  /-- A nested message: its own format, and one node for every field of it. -/
  | message (format : MessageFormat) (nodes : Array Node)

instance : Inhabited Node := ⟨.leaf 0⟩

/-! ## Equality -/

namespace Node

mutual

/-- Whether two stored values are the same. -/
def same : Node → Node → Bool
  | .leaf p, .leaf q => p == q
  | .array ⟨xs⟩, .array ⟨ys⟩ => sameAll xs ys
  | .message f ⟨xs⟩, .message g ⟨ys⟩ => f == g && sameAll xs ys
  | _, _ => false

/-- Whether two lists hold the same stored values. -/
def sameAll : List Node → List Node → Bool
  | [], [] => true
  | x :: xs, y :: ys => x.same y && sameAll xs ys
  | _, _ => false

end

mutual

/-- `same` decides equality. -/
theorem same_iff : ∀ a b : Node, a.same b = true ↔ a = b
  | .leaf p, b => by cases b <;> simp [same]
  | .array ⟨xs⟩, b => by
    match b with
    | .array ⟨ys⟩ => simp [same, sameAll_iff xs ys]
    | .leaf _ | .message .. => simp [same]
  | .message f ⟨xs⟩, b => by
    match b with
    | .message g ⟨ys⟩ => simp [same, sameAll_iff xs ys]
    | .leaf _ | .array _ => simp [same]

/-- `sameAll` decides equality of lists. -/
theorem sameAll_iff : ∀ xs ys : List Node, sameAll xs ys = true ↔ xs = ys
  | [], ys => by cases ys <;> simp [sameAll]
  | x :: xs, ys => by
    match ys with
    | [] => simp [sameAll]
    | y :: ys => simp [sameAll, same_iff x y, sameAll_iff xs ys]

end

end Node

instance : DecidableEq Node := fun a b => decidable_of_iff _ (Node.same_iff a b)

/-! ## Zero -/

/-- How many bytes a stored value takes in the memory of an array. -/
def Node.byteSize : Nat := 32

/-- The most bytes that can be asked for at once. -/
def maxAllocation : Nat := UInt64.size / 2 - 1

mutual

/-- Makes the stored form of a value all of whose bits are zero.  The memory of an array is asked
for when its element has been made; there is no stored form if it is more than can be asked for. -/
def Format.allocate? : Format → Option Node
  | .array element capacity =>
    element.allocate?.bind fun zero =>
      if capacity * Node.byteSize ≤ maxAllocation then some (.array (.replicate capacity zero))
      else none
  | .message ⟨name, ⟨fields⟩, totalBits⟩ =>
    (Format.allocateAll? fields).map fun nodes => .message ⟨name, ⟨fields⟩, totalBits⟩ nodes.toArray
  | _ => some (.leaf 0)

/-- Makes the stored forms of the fields of a message all of whose bits are zero. -/
def Format.allocateAll? : List FieldFormat → Option (List Node)
  | [] => some []
  | ⟨_, _, _, format⟩ :: rest =>
    format.allocate?.bind fun node => (Format.allocateAll? rest).map (node :: ·)

end

/-- Makes the stored fields of a message all of whose bits are zero. -/
def MessageFormat.allocate {ε : Type} (f : MessageFormat) : Except (Failure ε) (Array Node) :=
  match Format.allocateAll? f.fields.toList with
  | some nodes => .ok nodes.toArray
  | none => .error .capacityOverflow

/-- Where the field called `name` stands among the fields, with the field. -/
def MessageFormat.named? (f : MessageFormat) (name : String) : Option (Nat × FieldFormat) :=
  f.fields.toList.zipIdx.findSome? fun (field, i) =>
    if field.name == name then some (i, field) else none

/-! ## From values -/

namespace Value

/-- The pattern of an unsigned integer of `bits` bits. -/
def unsignedPattern (value : Value) (bits : Nat) (path : FieldPath) :
    Except ValidationError UInt64 :=
  match value with
  | .uint v => if Pattern.fitsUnsigned v bits then .ok v else .error (.valueOutOfRange path v.toNat bits)
  | .int v =>
    if 0 ≤ v.toInt && Pattern.fitsUnsigned v.toUInt64 bits then .ok v.toUInt64
    else .error (.valueOutOfRange path v.toInt bits)
  | _ => .error (.typeMismatch path "unsigned integer")

/-- The pattern of a signed integer of `bits` bits. -/
def signedPattern (value : Value) (bits : Nat) (path : FieldPath) :
    Except ValidationError UInt64 :=
  match value with
  | .int v =>
    if Pattern.fitsSigned v bits then .ok (Pattern.ofSigned v bits)
    else .error (.valueOutOfRange path v.toInt bits)
  | .uint v =>
    if v.toNat < UInt64.size / 2 && Pattern.fitsSigned v.toInt64 bits then
      .ok (Pattern.ofSigned v.toInt64 bits)
    else .error (.valueOutOfRange path v.toNat bits)
  | _ => .error (.typeMismatch path "signed integer")

mutual

/-- Stores a value in a format, or says what is wrong with it. -/
def toNode : Value → Format → FieldPath → Except (Failure ValidationError) Node
  | .bool b, .bool, _ => .ok (.leaf (if b then 1 else 0))
  | _, .bool, path => .error (.returned (.typeMismatch path "bool"))
  | value, .uint bits, path => (Failure.ofExcept (value.unsignedPattern bits path)).map .leaf
  | value, .enum e, path => (Failure.ofExcept (value.unsignedPattern e.bits path)).map .leaf
  | value, .int bits, path => (Failure.ofExcept (value.signedPattern bits path)).map .leaf
  | .array items, .array element capacity, path =>
    if items.length ≠ capacity then
      .error (.returned (.arrayLength path capacity items.length))
    else (itemNodes items element path #[]).map .array
  | _, .array .., path => .error (.returned (.typeMismatch path "array"))
  | .message entries, .message m, path =>
    (MessageFormat.allocate m).bind fun zeros =>
      (entryNodes entries m path zeros).map (.message m)
  | _, .message _, path => .error (.returned (.typeMismatch path "message"))

/-- Stores elements of an array behind those that are stored already. -/
def itemNodes : List Value → Format → FieldPath → (stored : Array Node) →
    Except (Failure ValidationError) (Array Node)
  | [], _, _, stored => .ok stored
  | item :: rest, element, path, stored =>
    match item.toNode element (path.index stored.size) with
    | .error e => .error e
    | .ok node => itemNodes rest element path (stored.push node)

/-- Stores the entries of a record one after the other in the stored fields of a message. -/
def entryNodes : List (String × Value) → MessageFormat → FieldPath → Array Node →
    Except (Failure ValidationError) (Array Node)
  | [], _, _, nodes => .ok nodes
  | (name, value) :: rest, m, path, nodes =>
    match MessageFormat.named? m name with
    | none => .error (.returned (.unknownField (path.field name)))
    | some (i, field) =>
      match value.toNode field.format (path.field name) with
      | .error e => .error e
      | .ok node => entryNodes rest m path (nodes.setIfInBounds i node)

end

end Value

/-! ## To values -/

namespace Node

mutual

/-- The value that a node of a format stands for.  A nested message is read by its own format. -/
def toValue : Node → Format → Value
  | .leaf pattern, .bool => .bool (pattern != 0)
  | .leaf pattern, .int bits => .int (Pattern.signExtend pattern bits)
  | .leaf pattern, _ => .uint pattern
  | .array ⟨items⟩, .array element _ => .array (itemValues items element)
  | .message own ⟨nodes⟩, .message _ =>
    .message (Record.ofList (fieldValues nodes own.fields.toList))
  | _, _ => .message []

/-- The values of the elements of an array. -/
def itemValues : List Node → Format → List Value
  | [], _ => []
  | item :: rest, element => item.toValue element :: itemValues rest element

/-- The values of fields, with their names. -/
def fieldValues : List Node → List FieldFormat → List (String × Value)
  | node :: nodes, ⟨_, name, _, format⟩ :: fields =>
    (name, node.toValue format) :: fieldValues nodes fields
  | _, _ => []

end

/-! ## Elements of nested arrays -/

/-- The node and the format that indices lead to, one index per array level. -/
def follow? : List Nat → Node → Format → Option (Node × Format)
  | [], node, format => some (node, format)
  | i :: rest, .array items, .array element _ =>
    match items[i]? with
    | some item => follow? rest item element
    | none => none
  | _, _, _ => none

/-- Puts a node in the place that indices lead to. -/
def replaceAt : List Nat → Node → Node → Node
  | [], _, new => new
  | i :: rest, .array items, new =>
    .array (items.modify i fun item => replaceAt rest item new)
  | _, node, _ => node

end Node

end Bitwire
