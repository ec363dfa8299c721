import Bitwire.Pattern
import Bitwire.Place

/-!
# Accessors

The codec never looks into a message.  It asks for one byte of one value's bit pattern at a time,
and adds one byte to one value's bit pattern at a time, through an accessor: a record of the four
operations for messages of a type `α`.  The operations run in a monad, so that an accessor may
refuse a place or keep a record of its calls; a message nested in another is again an `α`.
-/

namespace Bitwire

/-- Byte-level access to messages of type `α`.  A field number that a message does not have is no
fault: its bytes are zero, and adding to it changes nothing. -/
structure Accessor (m : Type → Type) (α : Type) where
  /-- Bits `shift` to `shift + 7` of the bit pattern of the value at a place; a negative shift
  moves the pattern up. -/
  getByte : α → Place → (shift : Int) → m UInt8
  /-- Adds the bits of a byte, moved up by `shift`, to the bit pattern of the value at a place.  A
  boolean becomes whether the byte is not zero. -/
  setByte : α → Place → (shift : Nat) → UInt8 → m α
  /-- The nested message at a place, for reading. -/
  message? : α → Place → m (Option α)
  /-- The nested message at a place, for writing, with the function that puts a changed one back. -/
  messageMut? : α → Place → m (Option (α × (α → α)))

namespace Accessor

variable {m : Type → Type} [Monad m] {α : Type}

/-- Enters one nested message after the other, for reading. -/
def enter (A : Accessor m α) : List Place → α → m (Option α)
  | [], s => return some s
  | place :: rest, s => do
    match ← A.message? s place with
    | some child => A.enter rest child
    | none => return none

/-- Enters one nested message after the other, runs an action on the last, and puts everything
back. -/
def enterMut (A : Accessor m α) {β : Type} (action : α → m (α × β)) :
    List Place → α → m (Option (α × β))
  | [], s => do return some (← action s)
  | place :: rest, s => do
    match ← A.messageMut? s place with
    | some (child, put) =>
      match ← A.enterMut action rest child with
      | some (child', b) => return some (put child', b)
      | none => return none
    | none => return none

end Accessor

/-! ## Constant messages -/

/-- The accessor of a message every value of which has one pattern.  Its nested messages, if it has
any, are like itself; nothing can change it. -/
def Accessor.constant (pattern : UInt64) (nested : Bool) : Accessor Id Unit where
  getByte _ _ shift := pure (Pattern.byteAt pattern shift)
  setByte s _ _ _ := pure s
  message? s _ := pure (if nested then some s else none)
  messageMut? s _ := pure (if nested then some (s, id) else none)

/-! ## Recording -/

/-- One call of an accessor. -/
inductive Call where
  | getByte (place : Place) (shift : Int)
  | setByte (place : Place) (shift : Nat) (byte : UInt8)
  | message (place : Place)
  | messageMut (place : Place)
deriving DecidableEq, Repr

/-- The accessor that behaves like a given one and appends every call to a list. -/
def Accessor.recording {α : Type} (A : Accessor Id α) : Accessor (StateM (Array Call)) α where
  getByte s place shift := do
    modify (·.push (.getByte place shift))
    return A.getByte s place shift
  setByte s place shift byte := do
    modify (·.push (.setByte place shift byte))
    return A.setByte s place shift byte
  message? s place := do
    modify (·.push (.message place))
    return A.message? s place
  messageMut? s place := do
    modify (·.push (.messageMut place))
    return A.messageMut? s place

end Bitwire
