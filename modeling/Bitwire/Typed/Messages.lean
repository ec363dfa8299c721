import Bitwire.Codec.Accessor
import Bitwire.Format

/-!
# Typed messages

Messages of the drone protocol as structures with a field of a machine type for every field of the
message.  A machine type may be wider than the field: the bits past the field's width are kept and
never reach the wire.
-/

namespace Bitwire

/-! ## Structures -/

/-- A scenario: one boolean, one unsigned and one signed field. -/
structure Scenario where
  flag : Bool := false
  small : UInt8 := 0
  signed : Int8 := 0
deriving DecidableEq, Repr, Inhabited

/-- One reading of a sensor. -/
structure Reading where
  temperature : Int8 := 0
  valid : Bool := false
deriving DecidableEq, Repr, Inhabited

/-- The state of a drone. -/
structure Drone where
  grid : Vector (Vector UInt8 2) 2 := .replicate 2 (.replicate 2 0)
  mode : UInt8 := 0
  readings : Vector Reading 2 := .replicate 2 {}
  altitude : UInt16 := 0
deriving DecidableEq, Repr, Inhabited

/-- Fields of the largest widths, at the least convenient offsets. -/
structure Extremes where
  type : UInt64 := 0
  low : Int64 := 0
  rows : Vector (Vector UInt8 3) 2 := .replicate 2 (.replicate 3 0)
  sample : Reading := {}
  channel : UInt8 := 0
  self : Int64 := 0
deriving DecidableEq, Repr, Inhabited

/-- A message of the drone protocol. -/
inductive TypedMessage where
  | scenario (s : Scenario)
  | reading (r : Reading)
  | drone (d : Drone)
  | extremes (e : Extremes)
deriving DecidableEq, Repr

/-! ## Formats -/

namespace TypedMessage

/-- The flight modes; no others are expected. -/
def flightMode : EnumFormat :=
  .ofValues "FlightMode" 2 false [0, 2]

/-- The channels: none is named yet, and any may come. -/
def channel : EnumFormat :=
  .ofValues "Channel" 3 true []

/-- The declared name of a flight mode. -/
def flightModeName? (value : UInt8) : Option String :=
  if value = 0 then some "FLIGHT_MODE_IDLE"
  else if value = 2 then some "FLIGHT_MODE_FLY"
  else none

/-- The declared name of a channel. -/
def channelName? (_value : UInt8) : Option String :=
  none

end TypedMessage

namespace Scenario

/-- Nine bits: the signed field fills the first byte, the flag starts the second. -/
def format : MessageFormat :=
  .ofFields "Scenario"
    [⟨1, "small", 0, .uint 3⟩, ⟨2, "signed", 3, .int 5⟩, ⟨3, "flag", 8, .bool⟩]

end Scenario

namespace Reading

/-- One byte: seven bits of temperature and a flag. -/
def format : MessageFormat :=
  .ofFields "Reading" [⟨1, "temperature", 0, .int 7⟩, ⟨2, "valid", 7, .bool⟩]

end Reading

namespace Drone

/-- Forty-two bits; the readings and the grid start inside a byte. -/
def format : MessageFormat :=
  .ofFields "Drone"
    [⟨1, "mode", 0, .enum TypedMessage.flightMode⟩,
      ⟨2, "readings", 2, .array (.message Reading.format) 2⟩,
      ⟨3, "grid", 18, .array (.array (.uint 3) 2) 2⟩,
      ⟨4, "altitude", 30, .uint 12⟩]

end Drone

namespace Extremes

/-- Two hundred and two bits, integers of 64 and 33 bits among them. -/
def format : MessageFormat :=
  .ofFields "Extremes"
    [⟨1, "low", 0, .int 64⟩, ⟨2, "type", 64, .uint 64⟩,
      ⟨3, "rows", 128, .array (.array (.uint 5) 3) 2⟩,
      ⟨4, "sample", 158, .message Reading.format⟩,
      ⟨5, "channel", 166, .enum TypedMessage.channel⟩,
      ⟨6, "self", 169, .int 33⟩]

end Extremes

namespace TypedMessage

/-- The format of a message. -/
def format : TypedMessage → MessageFormat
  | .scenario _ => Scenario.format
  | .reading _ => Reading.format
  | .drone _ => Drone.format
  | .extremes _ => Extremes.format

/-- The message of the same kind all of whose fields are zero. -/
def zeroed : TypedMessage → TypedMessage
  | .scenario _ => .scenario {}
  | .reading _ => .reading {}
  | .drone _ => .drone {}
  | .extremes _ => .extremes {}

/-- The size of a message in bytes. -/
def byteCount : TypedMessage → Nat
  | .scenario _ => 2
  | .reading _ => 1
  | .drone _ => 6
  | .extremes _ => 26

end TypedMessage

end Bitwire
