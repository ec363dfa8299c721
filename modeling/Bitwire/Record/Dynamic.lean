import Bitwire.Codec.EnumCheck
import Bitwire.Codec.Walk
import Bitwire.Record.Node

/-!
# Dynamic messages

A message that is known only by its format.  It is made from a record, which is checked against the
format once, and it is an accessor's message: the codec handles it like any other.
-/

namespace Bitwire

/-- A message of a format that is known only when the program runs. -/
structure DynamicMessage where
  format : MessageFormat
  /-- One node for every field, in the order of the format's fields. -/
  nodes : Array Node

namespace DynamicMessage

/-- Makes the message all of whose bits are zero. -/
def zeroed {ε : Type} (format : MessageFormat) : Except (Failure ε) DynamicMessage :=
  format.allocate.map (⟨format, ·⟩)

/-- Makes a message from a record.  Every value is checked against its field; a field that the
record leaves out is zero. -/
def ofRecord (format : MessageFormat) (r : Record) :
    Except (Failure ValidationError) DynamicMessage :=
  format.allocate.bind fun zeros =>
    (Value.entryNodes r format .root zeros).map (⟨format, ·⟩)

/-- The fields of a message, by name. -/
def toRecord (msg : DynamicMessage) : Record :=
  Record.ofList (Node.fieldValues msg.nodes.toList msg.format.fields.toList)

/-- The value of the field called `name`. -/
def get? (msg : DynamicMessage) (name : String) : Option Value :=
  (Node.fieldValues msg.nodes.toList msg.format.fields.toList).lookup name

/-- The node at a place, with its format. -/
def locate? (msg : DynamicMessage) (place : Place) : Option (Node × Format) :=
  match msg.format.fieldIndex? place.field with
  | none => none
  | some i =>
    match msg.nodes[i]?, msg.format.fields[i]? with
    | some node, some field => Node.follow? place.indices node field.format
    | _, _ => none

/-- Puts a node at a place. -/
def replace (msg : DynamicMessage) (place : Place) (new : Node) : DynamicMessage :=
  match msg.format.fieldIndex? place.field with
  | none => msg
  | some i => { msg with nodes := msg.nodes.modify i fun node => Node.replaceAt place.indices node new }

/-- Bits `shift` to `shift + 7` of the value at a place. -/
def getByte (msg : DynamicMessage) (place : Place) (shift : Int) : UInt8 :=
  match msg.locate? place with
  | some (.leaf pattern, _) => Pattern.byteAt pattern shift
  | _ => 0

/-- What becomes of a pattern of a format when a byte is added to it. -/
def addByte (format : Format) (pattern : UInt64) (shift : Nat) (b : UInt8) : UInt64 :=
  match format with
  | .bool => if b = 0 then 0 else 1
  | format => Pattern.truncate (Pattern.orByte pattern shift b) format.width

/-- Adds a byte to the value at a place. -/
def setByte (msg : DynamicMessage) (place : Place) (shift : Nat) (b : UInt8) : DynamicMessage :=
  match msg.locate? place with
  | some (.leaf pattern, format) => msg.replace place (.leaf (addByte format pattern shift b))
  | _ => msg

/-- The nested message at a place. -/
def message? (msg : DynamicMessage) (place : Place) : Option DynamicMessage :=
  match msg.locate? place with
  | some (.message own nodes, _) => some ⟨own, nodes⟩
  | _ => none

/-- Puts a changed nested message back. -/
def putMessage (msg : DynamicMessage) (place : Place) (child : DynamicMessage) : DynamicMessage :=
  msg.replace place (.message child.format child.nodes)

/-- Dynamic messages as an accessor's messages: any place can be asked for. -/
def accessor : Accessor Id DynamicMessage where
  getByte msg place shift := pure (msg.getByte place shift)
  setByte msg place shift b := pure (msg.setByte place shift b)
  message? msg place := pure (msg.message? place)
  messageMut? msg place := pure ((msg.message? place).map fun child => (child, msg.putMessage place))

end DynamicMessage

end Bitwire
