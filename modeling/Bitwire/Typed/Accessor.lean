import Bitwire.Codec.EnumCheck
import Bitwire.Codec.Walk
import Bitwire.Typed.Messages

/-!
# Accessing typed messages

Typed messages are an accessor's messages, with one case for every field.  An array field has to be
addressed by an index for each of its levels; an index that is missing or out of range is a fault,
and more indices than levels are ignored.
-/

namespace Bitwire

/-- Why a place leads to no element of an array. -/
inductive IndexFault where
  /-- There is no index for an array level. -/
  | missing (level : Nat)
  /-- An index is not below the number of elements. -/
  | outOfRange (index size : Nat)
deriving DecidableEq, Repr

/-- The index at an array level. -/
def Place.indexAt (place : Place) (level : Nat) : Except IndexFault Nat :=
  match place.index? level with
  | some i => .ok i
  | none => .error (.missing level)

namespace TypedMessage

/-- An element of an array. -/
def element {α : Type} {n : Nat} (v : Vector α n) (i : Nat) : Except IndexFault α :=
  if h : i < n then .ok v[i] else .error (.outOfRange i n)

/-- An array with another element at an index. -/
def update {α : Type} {n : Nat} (v : Vector α n) (i : Nat) (a : α) : Vector α n :=
  v.setIfInBounds i a

/-- Zero or one. -/
def bit (b : Bool) : UInt64 := if b then 1 else 0

/-! ## Scenario -/

/-- Bits `shift` to `shift + 7` of a field of a scenario. -/
def scenarioByte (s : Scenario) (place : Place) (shift : Int) : UInt8 :=
  match place.field with
  | 1 => Pattern.byteAt s.small.toUInt64 shift
  | 2 => Pattern.byteAt s.signed.toInt64.toUInt64 shift
  | 3 => Pattern.byteAt (bit s.flag) shift
  | _ => 0

/-- Adds a byte to a field of a scenario. -/
def setScenarioByte (s : Scenario) (place : Place) (shift : Nat) (b : UInt8) : Scenario :=
  match place.field with
  | 1 => { s with small := (Pattern.orByte s.small.toUInt64 shift b).toUInt8 }
  | 2 => { s with signed := (Pattern.orByteSigned s.signed.toInt64 5 shift b).toInt8 }
  | 3 => { s with flag := b != 0 }
  | _ => s

/-! ## Reading -/

/-- Bits `shift` to `shift + 7` of a field of a reading. -/
def readingByte (r : Reading) (place : Place) (shift : Int) : UInt8 :=
  match place.field with
  | 1 => Pattern.byteAt r.temperature.toInt64.toUInt64 shift
  | 2 => Pattern.byteAt (bit r.valid) shift
  | _ => 0

/-- Adds a byte to a field of a reading. -/
def setReadingByte (r : Reading) (place : Place) (shift : Nat) (b : UInt8) : Reading :=
  match place.field with
  | 1 => { r with temperature := (Pattern.orByteSigned r.temperature.toInt64 7 shift b).toInt8 }
  | 2 => { r with valid := b != 0 }
  | _ => r

/-! ## Drone -/

/-- Bits `shift` to `shift + 7` of a field of a drone. -/
def droneByte (d : Drone) (place : Place) (shift : Int) : Except IndexFault UInt8 :=
  match place.field with
  | 1 => return Pattern.byteAt d.mode.toUInt64 shift
  | 3 => do
    let row ← element d.grid (← place.indexAt 0)
    return Pattern.byteAt (← element row (← place.indexAt 1)).toUInt64 shift
  | 4 => return Pattern.byteAt d.altitude.toUInt64 shift
  | _ => return 0

/-- Adds a byte to a field of a drone. -/
def setDroneByte (d : Drone) (place : Place) (shift : Nat) (b : UInt8) : Except IndexFault Drone :=
  match place.field with
  | 1 => return { d with mode := (Pattern.orByte d.mode.toUInt64 shift b).toUInt8 }
  | 3 => do
    let i ← place.indexAt 0
    let row ← element d.grid i
    let j ← place.indexAt 1
    let cell ← element row j
    let cell := (Pattern.orByte cell.toUInt64 shift b).toUInt8
    return { d with grid := update d.grid i (update row j cell) }
  | 4 => return { d with altitude := (Pattern.orByte d.altitude.toUInt64 shift b).toUInt16 }
  | _ => return d

/-- The reading at a place of a drone, with its index. -/
def droneReading? (d : Drone) (place : Place) : Except IndexFault (Option (Nat × Reading)) :=
  match place.field with
  | 2 => do
    let i ← place.indexAt 0
    return some (i, ← element d.readings i)
  | _ => return none

/-! ## Extremes -/

/-- Bits `shift` to `shift + 7` of a field of extremes. -/
def extremesByte (e : Extremes) (place : Place) (shift : Int) : Except IndexFault UInt8 :=
  match place.field with
  | 1 => return Pattern.byteAt e.low.toUInt64 shift
  | 2 => return Pattern.byteAt e.type shift
  | 3 => do
    let row ← element e.rows (← place.indexAt 0)
    return Pattern.byteAt (← element row (← place.indexAt 1)).toUInt64 shift
  | 5 => return Pattern.byteAt e.channel.toUInt64 shift
  | 6 => return Pattern.byteAt e.self.toUInt64 shift
  | _ => return 0

/-- Adds a byte to a field of extremes. -/
def setExtremesByte (e : Extremes) (place : Place) (shift : Nat) (b : UInt8) :
    Except IndexFault Extremes :=
  match place.field with
  | 1 => return { e with low := Pattern.orByteSigned e.low 64 shift b }
  | 2 => return { e with type := Pattern.orByte e.type shift b }
  | 3 => do
    let i ← place.indexAt 0
    let row ← element e.rows i
    let j ← place.indexAt 1
    let cell ← element row j
    let cell := (Pattern.orByte cell.toUInt64 shift b).toUInt8
    return { e with rows := update e.rows i (update row j cell) }
  | 5 => return { e with channel := (Pattern.orByte e.channel.toUInt64 shift b).toUInt8 }
  | 6 => return { e with self := Pattern.orByteSigned e.self 33 shift b }
  | _ => return e

/-! ## All of them -/

/-- Bits `shift` to `shift + 7` of the value at a place. -/
def getByte (msg : TypedMessage) (place : Place) (shift : Int) : Except IndexFault UInt8 :=
  match msg with
  | .scenario s => return scenarioByte s place shift
  | .reading r => return readingByte r place shift
  | .drone d => droneByte d place shift
  | .extremes e => extremesByte e place shift

/-- Adds a byte to the value at a place. -/
def setByte (msg : TypedMessage) (place : Place) (shift : Nat) (b : UInt8) :
    Except IndexFault TypedMessage :=
  match msg with
  | .scenario s => return .scenario (setScenarioByte s place shift b)
  | .reading r => return .reading (setReadingByte r place shift b)
  | .drone d => return .drone (← setDroneByte d place shift b)
  | .extremes e => return .extremes (← setExtremesByte e place shift b)

/-- The nested message at a place, with the function that puts a changed one back. -/
def messageMut? (msg : TypedMessage) (place : Place) :
    Except IndexFault (Option (TypedMessage × (TypedMessage → TypedMessage))) :=
  match msg with
  | .drone d => do
    match ← droneReading? d place with
    | some (i, r) =>
      let put : TypedMessage → TypedMessage
        | .reading r => .drone { d with readings := update d.readings i r }
        | _ => .drone d
      return some (.reading r, put)
    | none => return none
  | .extremes e =>
    if place.field = 4 then
      let put : TypedMessage → TypedMessage
        | .reading r => .extremes { e with sample := r }
        | _ => .extremes e
      return some (.reading e.sample, put)
    else return none
  | _ => return none

/-- Typed messages as an accessor's messages. -/
def accessor : Accessor (Except IndexFault) TypedMessage where
  getByte := getByte
  setByte := setByte
  message? msg place := do return (← msg.messageMut? place).map Prod.fst
  messageMut? := messageMut?

/-- Encodes a typed message. -/
def encode (msg : TypedMessage) : Except IndexFault (Logged (List UInt8)) :=
  msg.format.encode accessor msg

/-- Encodes a typed message into the front of a buffer.  The result is the number of bytes
written. -/
def encodeInto (msg : TypedMessage) :
    StateT (Array UInt8) (Except IndexFault) (Logged (Except CodecError Nat)) :=
  msg.format.encodeInto accessor msg

/-- Decodes a message of the same kind as `kind` from the front of `data`. -/
def decode (kind : TypedMessage) (data : List UInt8) (config : CodecConfig := {}) :
    Except IndexFault (Logged (Except CodecError TypedMessage)) := do
  let decoded ← kind.format.decodeInto accessor kind.zeroed data
  match decoded.value with
  | .error e => return ⟨.error e, decoded.events⟩
  | .ok msg =>
    let verified ← msg.format.verify accessor msg config
    let result := match verified.value with
      | .ok () => .ok msg
      | .error e => .error (.validation e)
    return ⟨result, decoded.events ++ verified.events⟩

end TypedMessage

end Bitwire
