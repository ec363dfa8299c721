import Bitwire.Codec.EnumCheck
import Bitwire.Codec.Walk

/-!
# The cursor of a run

A run of the codec keeps one cursor for all its calls of accessors.  The cursor holds the number of
the field at hand and a stack of indices: entering an element of an array pushes its index, and
entering a nested message opens a frame, so that the indices of the messages around it are hidden.
What is entered has to be left again, or the next call speaks of a wrong place.
-/

namespace Bitwire

/-- The cursor of a run. -/
structure Cursor where
  /-- Number of the field at hand. -/
  field : UInt16 := 0
  /-- The indices entered, those of the messages around the one at hand included. -/
  indices : List Nat := []
  /-- How many of the indices belong to messages around the one at hand. -/
  base : Nat := 0
deriving DecidableEq, Repr

/-- What a cursor has to get back when a nested message is left. -/
structure Frame where
  field : UInt16
  base : Nat
deriving DecidableEq, Repr

namespace Cursor

/-- The place that an accessor sees: the field, and the indices entered in its message. -/
def place (c : Cursor) : Place :=
  ⟨c.field, c.indices.drop c.base⟩

def setField (c : Cursor) (number : UInt16) : Cursor :=
  { c with field := number }

def pushIndex (c : Cursor) (i : Nat) : Cursor :=
  { c with indices := c.indices ++ [i] }

def popIndex (c : Cursor) : Cursor :=
  { c with indices := c.indices.dropLast }

/-- The state to come back to when the message that is entered next is left. -/
def frame (c : Cursor) : Frame :=
  ⟨c.field, c.base⟩

def enterMessage (c : Cursor) : Cursor :=
  { c with base := c.indices.length }

def leaveMessage (c : Cursor) (frame : Frame) : Cursor :=
  ⟨frame.field, c.indices.take c.base, frame.base⟩

section

variable {m : Type → Type} [Monad m] {β : Type}

/-- Makes a call at the place that the cursor shows. -/
@[inline]
def call (op : Place → m β) : StateT Cursor m β := do
  op (← get).place

/-- Visits an element of an array. -/
@[inline]
def atIndex (i : Nat) (visit : StateT Cursor m β) : StateT Cursor m β := do
  modify (·.pushIndex i)
  let b ← visit
  modify popIndex
  return b

/-- Visits the fields of a message. -/
@[inline]
def inMessage (visit : StateT Cursor m β) : StateT Cursor m β := do
  let frame := (← get).frame
  modify enterMessage
  let b ← visit
  modify (·.leaveMessage frame)
  return b

end

end Cursor

section

variable {m : Type → Type} [Monad m] {α : Type}

/-! ## Encoding -/

/-- What the visits of elements contribute to a byte. -/
@[specialize]
def orEach (visit : Nat → m UInt8) : List Nat → m UInt8
  | [] => return 0
  | i :: rest => do
    let first ← visit i
    let others ← orEach visit rest
    return first ||| others

namespace Format

/-- What a scalar of `width` bits contributes to byte `byte`. -/
@[specialize]
def encodeScalarAt (A : Accessor m α) (width offset byte : Nat) (s : α) : StateT Cursor m UInt8 :=
  match ByteSpan.of? offset width byte with
  | some span => do return (← Cursor.call fun place => A.getByte s place span.shift) &&& span.mask
  | none => return 0

mutual

/-- What the value that the cursor shows, at bit `offset`, contributes to byte `byte`. -/
@[specialize]
def encodeAt (A : Accessor m α) : Format → (offset byte : Nat) → α → StateT Cursor m UInt8
  | .array element capacity, offset, byte, s =>
    orEach
      (fun i => Cursor.atIndex i (element.encodeAt A (offset + element.elementOffset i) byte s))
      (overlappingElements element.width capacity offset byte)
  | .message ⟨name, ⟨fields⟩, totalBits⟩, offset, byte, s => do
    let m : MessageFormat := ⟨name, ⟨fields⟩, totalBits⟩
    match ← Cursor.call (A.message? s) with
    | some child =>
      Cursor.inMessage
        (encodeFieldsAt A fields (m.endedBefore (8 * byte - offset)) offset byte child)
    | none => return 0
  | .bool, offset, byte, s => encodeScalarAt A 1 offset byte s
  | .int bits, offset, byte, s => encodeScalarAt A bits offset byte s
  | .uint bits, offset, byte, s => encodeScalarAt A bits offset byte s
  | .enum e, offset, byte, s => encodeScalarAt A e.bits offset byte s

/-- What the fields of a message at bit `base` contribute to byte `byte`, the first `skip` fields
left out and the walk ended at the first field behind the byte. -/
@[specialize]
def encodeFieldsAt (A : Accessor m α) :
    List FieldFormat → (skip base byte : Nat) → α → StateT Cursor m UInt8
  | [], _, _, _, _ => return 0
  | _ :: rest, skip + 1, base, byte, s => encodeFieldsAt A rest skip base byte s
  | ⟨number, _, offset, format⟩ :: rest, 0, base, byte, s =>
    if 8 * byte + 8 ≤ base + offset then return 0
    else do
      modify (·.setField number)
      let first ← format.encodeAt A (base + offset) byte s
      let others ← encodeFieldsAt A rest 0 base byte s
      return first ||| others

end

/-! ## Decoding -/

/-- Adds what a byte holds for a scalar of `width` bits. -/
@[specialize]
def decodeScalarAt (A : Accessor m α) (input : UInt8) (width offset byte : Nat) (s : α) :
    StateT Cursor m α :=
  match ByteSpan.of? offset width byte with
  | some span =>
    let (shift, bits) := span.contribution input
    Cursor.call fun place => A.setByte s place shift bits
  | none => return s

mutual

/-- Adds what a byte holds for the value that the cursor shows, at bit `offset`. -/
@[specialize]
def decodeAt (A : Accessor m α) (input : UInt8) :
    Format → (offset byte : Nat) → α → StateT Cursor m α
  | .array element capacity, offset, byte, s =>
    (overlappingElements element.width capacity offset byte).foldlM
      (fun s i =>
        Cursor.atIndex i (element.decodeAt A input (offset + element.elementOffset i) byte s)) s
  | .message ⟨name, ⟨fields⟩, totalBits⟩, offset, byte, s => do
    let m : MessageFormat := ⟨name, ⟨fields⟩, totalBits⟩
    match ← Cursor.call (A.messageMut? s) with
    | some (child, put) => do
      let child' ← Cursor.inMessage
        (decodeFieldsAt A input fields (m.endedBefore (8 * byte - offset)) offset byte child)
      return put child'
    | none => return s
  | .bool, offset, byte, s => decodeScalarAt A input 1 offset byte s
  | .int bits, offset, byte, s => decodeScalarAt A input bits offset byte s
  | .uint bits, offset, byte, s => decodeScalarAt A input bits offset byte s
  | .enum e, offset, byte, s => decodeScalarAt A input e.bits offset byte s

/-- Adds what a byte holds for the fields of a message at bit `base`, the first `skip` fields left
out and the walk ended at the first field behind the byte. -/
@[specialize]
def decodeFieldsAt (A : Accessor m α) (input : UInt8) :
    List FieldFormat → (skip base byte : Nat) → α → StateT Cursor m α
  | [], _, _, _, s => return s
  | _ :: rest, skip + 1, base, byte, s => decodeFieldsAt A input rest skip base byte s
  | ⟨number, _, offset, format⟩ :: rest, 0, base, byte, s =>
    if 8 * byte + 8 ≤ base + offset then return s
    else do
      modify (·.setField number)
      let s' ← format.decodeAt A input (base + offset) byte s
      decodeFieldsAt A input rest 0 base byte s'

end

end Format

/-! ## Checking enums -/

/-- Takes a step at every index from `i` on, `count` of them. -/
@[specialize]
def eachIndex {β : Type} (step : Nat → β → m β) : (count i : Nat) → β → m β
  | 0, _, b => return b
  | count + 1, i, b => do eachIndex step count (i + 1) (← step i b)

/-- A step that may end the run. -/
def orEnd {ε β : Type} (result : Except ε β) : StateT Cursor (ExceptT ε m) β :=
  StateT.lift (ExceptT.mk (pure result))

namespace Format

mutual

/-- Checks the enums in the value that the cursor shows.  A fault ends the run, and the cursor with
it. -/
@[specialize]
def checkAt (A : Accessor m α) (policy : EnumPolicy) :
    Format → α → FieldPath → (met : Array UnknownEnum) →
      StateT Cursor (ExceptT UnknownEnum m) (Array UnknownEnum)
  | .enum e, s, path, met =>
    if e.extensible then return met
    else do
      let value ← Cursor.call fun place => ExceptT.lift (A.readPattern s place e.bits)
      if e.contains value then return met
      else orEnd (policy.meet met ⟨path, e.name, value⟩)
  | .array element capacity, s, path, met =>
    eachIndex
      (fun i met => Cursor.atIndex i (element.checkAt A policy s (path.index i) met)) capacity 0 met
  | .message ⟨_, ⟨fields⟩, _⟩, s, path, met => do
    match ← Cursor.call fun place => ExceptT.lift (A.message? s place) with
    | some child => Cursor.inMessage (checkFieldsAt A policy fields child path met)
    | none => return met
  | .bool, _, _, met => return met
  | .int _, _, _, met => return met
  | .uint _, _, _, met => return met

/-- Checks the enums in the fields of a message.  A field that holds none is not looked at. -/
@[specialize]
def checkFieldsAt (A : Accessor m α) (policy : EnumPolicy) :
    List FieldFormat → α → FieldPath → (met : Array UnknownEnum) →
      StateT Cursor (ExceptT UnknownEnum m) (Array UnknownEnum)
  | [], _, _, met => return met
  | ⟨number, name, _, format⟩ :: rest, s, path, met =>
    if format.hasClosedEnum then do
      modify (·.setField number)
      let met' ← format.checkAt A policy s (path.field name) met
      checkFieldsAt A policy rest s path met'
    else checkFieldsAt A policy rest s path met

end

end Format

/-! ## Runs -/

namespace MessageFormat

/-- Appends bytes of the encoding of a message to `out`, from byte `byte` on, `count` of them. -/
@[specialize]
def encodeRun (f : MessageFormat) (A : Accessor m α) (s : α) :
    (count byte : Nat) → (out : Array UInt8) → StateT Cursor m (Array UInt8)
  | 0, _, out => return out
  | count + 1, byte, out => do
    let b ← Cursor.inMessage
      (Format.encodeFieldsAt A f.fields.toList (f.endedBefore (8 * byte)) 0 byte s)
    f.encodeRun A s count (byte + 1) (out.push b)

/-- Adds the bytes of an encoding, the first of which is byte `byte`, to a message. -/
@[specialize]
def decodeRun (f : MessageFormat) (A : Accessor m α) :
    List UInt8 → (byte : Nat) → α → StateT Cursor m α
  | [], _, s => return s
  | input :: rest, byte, s => do
    let s' ← Cursor.inMessage
      (Format.decodeFieldsAt A input f.fields.toList (f.endedBefore (8 * byte)) 0 byte s)
    f.decodeRun A rest (byte + 1) s'

/-- Checks the enum values of a message. -/
@[specialize]
def checkRun (f : MessageFormat) (A : Accessor m α) (s : α) (policy : EnumPolicy) :
    StateT Cursor (ExceptT UnknownEnum m) (Array UnknownEnum) :=
  Cursor.inMessage (Format.checkFieldsAt A policy f.fields.toList s .root #[])

/-- Encodes a message, with one cursor for all its bytes. -/
@[specialize]
def encodeWithCursor (f : MessageFormat) (A : Accessor m α) (s : α) : m (Logged (List UInt8)) := do
  let out ← (f.encodeRun A s f.byteCount 0 #[]).run' {}
  return .report out.toList (.encoding f.name f.byteCount)

/-- Decodes the front of `data` into a message, with one cursor for all bytes. -/
@[specialize]
def decodeIntoWithCursor (f : MessageFormat) (A : Accessor m α) (s : α) (data : List UInt8) :
    m (Logged (Except CodecError α)) :=
  if data.length < f.byteCount then
    return .silent (.error (.bufferTooShort f.byteCount data.length))
  else do
    let s' ← (f.decodeRun A (data.take f.byteCount) 0 s).run' {}
    return .report (.ok s') (.decoding f.name f.byteCount)

/-- Checks the enum values of a message, with one cursor for all its values. -/
@[specialize]
def checkEnumsWithCursor (f : MessageFormat) (A : Accessor m α) (s : α) (policy : EnumPolicy) :
    m (Logged (Except ValidationError Unit)) := do
  match ← ((f.checkRun A s policy).run' {}).run with
  | .error fault => return .silent (.error fault.error)
  | .ok met => return ⟨.ok (), met.toList.map UnknownEnum.event⟩

end MessageFormat

end

end Bitwire
