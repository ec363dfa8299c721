import Bitwire.Codec.Accessor
import Bitwire.Codec.Error
import Bitwire.Codec.Visit
import Bitwire.Event

/-!
# Encoding and decoding

A message is encoded byte by byte.  For byte `b` every value that has bits there contributes
`getByte (8 b - offset) &&& mask`, and the contributions are or-ed together; values never overlap,
so their order does not matter.  Decoding makes the opposite moves with `setByte`.
-/

namespace Bitwire

namespace Visit

variable {m : Type → Type} [Monad m] {α : Type}

mutual

/-- What a visit contributes to its byte. -/
@[specialize]
def read (A : Accessor m α) : Visit → α → m UInt8
  | .value place span, s => do return (← A.getByte s place span.shift) &&& span.mask
  | .message place inner, s => do
    match ← A.message? s place with
    | some child => readAll A inner child
    | none => return 0

/-- What a list of visits contributes to its byte. -/
@[specialize]
def readAll (A : Accessor m α) : List Visit → α → m UInt8
  | [], _ => return 0
  | visit :: rest, s => do
    let first ← visit.read A s
    let others ← readAll A rest s
    return first ||| others

end

mutual

/-- Adds what a byte holds for a visit to a message. -/
@[specialize]
def write (A : Accessor m α) (input : UInt8) : Visit → α → m α
  | .value place span, s =>
    let (shift, bits) := span.contribution input
    A.setByte s place shift bits
  | .message place inner, s => do
    match ← A.messageMut? s place with
    | some (child, put) => do return put (← writeAll A input inner child)
    | none => return s

/-- Adds what a byte holds for a list of visits to a message. -/
@[specialize]
def writeAll (A : Accessor m α) (input : UInt8) : List Visit → α → m α
  | [], s => return s
  | visit :: rest, s => do writeAll A input rest (← visit.write A input s)

end

end Visit

namespace MessageFormat

variable {m : Type → Type} [Monad m] {α : Type}

/-- Byte `byte` of the encoding of a message. -/
@[specialize]
def encodeByte (f : MessageFormat) (A : Accessor m α) (s : α) (byte : Nat) : m UInt8 :=
  Visit.readAll A (f.visits byte) s

/-- Appends bytes of the encoding of a message to `out`, from byte `byte` on, `count` of them. -/
@[specialize]
def encodeFrom (f : MessageFormat) (A : Accessor m α) (s : α) :
    (count byte : Nat) → (out : Array UInt8) → m (Array UInt8)
  | 0, _, out => return out
  | count + 1, byte, out => do
    f.encodeFrom A s count (byte + 1) (out.push (← f.encodeByte A s byte))

/-- The encoding of a message. -/
@[specialize]
def encodeBytes (f : MessageFormat) (A : Accessor m α) (s : α) : m (List UInt8) := do
  return (← f.encodeFrom A s f.byteCount 0 #[]).toList

/-- Adds the bytes of an encoding, the first of which is byte `byte`, to a message. -/
@[specialize]
def decodeFrom (f : MessageFormat) (A : Accessor m α) : List UInt8 → (byte : Nat) → α → m α
  | [], _, s => return s
  | input :: rest, byte, s => do
    f.decodeFrom A rest (byte + 1) (← Visit.writeAll A input (f.visits byte) s)

/-- Encodes a message. -/
@[specialize]
def encode (f : MessageFormat) (A : Accessor m α) (s : α) : m (Logged (List UInt8)) := do
  return .report (← f.encodeBytes A s) (.encoding f.name f.byteCount)

/-- Writes bytes of the encoding of a message over those of a buffer, `count` of them from byte `byte`
on. -/
@[specialize]
def encodeOver (f : MessageFormat) (A : Accessor m α) (s : α) :
    (count byte : Nat) → StateT (Array UInt8) m Unit
  | 0, _ => return ()
  | count + 1, byte => do
    let b ← (f.encodeByte A s byte : m UInt8)
    modify (·.setIfInBounds byte b)
    f.encodeOver A s count (byte + 1)

/-- Encodes a message into the front of a buffer.  The result is the number of bytes written. -/
@[specialize]
def encodeInto (f : MessageFormat) (A : Accessor m α) (s : α) :
    StateT (Array UInt8) m (Logged (Except CodecError Nat)) := do
  let actual := (← get).size
  if actual < f.byteCount then return .silent (.error (.bufferTooShort f.byteCount actual))
  else do
    f.encodeOver A s f.byteCount 0
    return .report (.ok f.byteCount) (.encoding f.name f.byteCount)

/-- Decodes the front of `data` into a message.  Bits are or-ed into what the message holds; bytes
behind the message are ignored. -/
@[specialize]
def decodeInto (f : MessageFormat) (A : Accessor m α) (s : α) (data : List UInt8) :
    m (Logged (Except CodecError α)) :=
  if data.length < f.byteCount then
    return .silent (.error (.bufferTooShort f.byteCount data.length))
  else do
    let s' ← f.decodeFrom A (data.take f.byteCount) 0 s
    return .report (.ok s') (.decoding f.name f.byteCount)

end MessageFormat

end Bitwire
