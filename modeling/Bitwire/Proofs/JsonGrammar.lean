import Bitwire.Json.Document
import Bitwire.Json.Library
import Mathlib

/-!
# JSON texts

What a text of a JSON value is, apart from any reader and any printer: the units of the value one
after the other, with white space wherever it is allowed, and strings spelled in any of the ways
there are.  With it, what a library for JSON documents about itself can be said: that it prints a
text of the JSON value that represents a value, and that it reads what the JSON value of a text
stands for.
-/

namespace Bitwire

namespace JsonToken

/-! ## 1. Spellings of units -/

/-- The ways to spell a character in a string: as itself, by an escape of one letter, by its code
point in hexadecimal digits, or by the two halves of a surrogate pair. -/
inductive SpellsChar : List Char → Char → Prop
  | plain {c : Char} : c ≠ '"' → c ≠ '\\' → 0x20 ≤ c.toNat → SpellsChar [c] c
  | escape {letter c : Char} : simpleEscape? letter = some c → SpellsChar ['\\', letter] c
  | unit {h₁ h₂ h₃ h₄ c : Char} : hexUnit? h₁ h₂ h₃ h₄ = some c.toNat →
      SpellsChar ['\\', 'u', h₁, h₂, h₃, h₄] c
  | pair {h₁ h₂ h₃ h₄ l₁ l₂ l₃ l₄ c : Char} {high low : Nat} :
      hexUnit? h₁ h₂ h₃ h₄ = some high → isHighSurrogate high = true →
      hexUnit? l₁ l₂ l₃ l₄ = some low → isLowSurrogate low = true →
      c.toNat = 0x10000 + (high - 0xd800) * 0x400 + (low - 0xdc00) →
      SpellsChar ['\\', 'u', h₁, h₂, h₃, h₄, '\\', 'u', l₁, l₂, l₃, l₄] c

/-- The ways to spell the characters of a string. -/
inductive SpellsChars : List Char → List Char → Prop
  | nil : SpellsChars [] []
  | cons {front rest : List Char} {c : Char} {cs : List Char} :
      SpellsChar front c → SpellsChars rest cs → SpellsChars (front ++ rest) (c :: cs)

/-- The ways to spell a unit.  Only strings have more than one.  An integer has no zero in front,
and zero has no sign. -/
inductive Spells : List Char → JsonToken → Prop
  | openObject : Spells ['{'] .openObject
  | closeObject : Spells ['}'] .closeObject
  | openArray : Spells ['['] .openArray
  | closeArray : Spells [']'] .closeArray
  | comma : Spells [','] .comma
  | colon : Spells [':'] .colon
  | string {cs : List Char} {s : String} : SpellsChars cs s.toList →
      Spells ('"' :: (cs ++ ['"'])) (.string (some s))
  | null : Spells "null".toList (.scalar .null)
  | bool (b : Bool) : Spells (if b then "true" else "false").toList (.scalar (.bool b))
  | int (v : Int) : Spells (toString v).toList (.scalar (.int v))

/-- The ways to spell units one after the other, with white space between them and around them. -/
inductive SpellsAll : List Char → List JsonToken → Prop
  | done {gap : List Char} : (∀ c ∈ gap, isBlank c = true) → SpellsAll gap []
  | unit {gap front rest : List Char} {token : JsonToken} {tokens : List JsonToken} :
      (∀ c ∈ gap, isBlank c = true) → Spells front token → SpellsAll rest tokens →
      SpellsAll (gap ++ (front ++ rest)) (token :: tokens)

end JsonToken

namespace Json

/-! ## 2. Texts of values -/

mutual

/-- The units that a value is written with. -/
def tokens : Json → List JsonToken
  | .str s => [.string (some s)]
  | .arr items => .openArray :: ([.comma].intercalate (itemTokens items) ++ [.closeArray])
  | .obj members => .openObject :: ([.comma].intercalate (memberTokens members) ++ [.closeObject])
  | v => [.scalar v]

/-- The units of each element of an array. -/
def itemTokens : List Json → List (List JsonToken)
  | [] => []
  | item :: rest => item.tokens :: itemTokens rest

/-- The units of each member of an object. -/
def memberTokens : List (String × Json) → List (List JsonToken)
  | [] => []
  | (name, v) :: rest => (.string (some name) :: .colon :: v.tokens) :: memberTokens rest

end

/-- Whether a text spells a value. -/
def Spells (v : Json) (text : String) : Prop :=
  JsonToken.SpellsAll text.toList v.tokens

mutual

/-- How many arrays and objects of a value are open at once. -/
def nesting : Json → Nat
  | .arr items => itemNesting items + 1
  | .obj members => memberNesting members + 1
  | _ => 0

/-- The deepest nesting of some elements. -/
def itemNesting : List Json → Nat
  | [] => 0
  | item :: rest => max item.nesting (itemNesting rest)

/-- The deepest nesting of some members. -/
def memberNesting : List (String × Json) → Nat
  | [] => 0
  | (_, v) :: rest => max v.nesting (memberNesting rest)

end

theorem itemNesting_le_iff (items : List Json) (room : Nat) :
    itemNesting items ≤ room ↔ ∀ item ∈ items, item.nesting ≤ room := by
  induction items with
  | nil => simp [itemNesting]
  | cons item rest ih => rw [itemNesting, max_le_iff, ih, List.forall_mem_cons]

theorem memberNesting_le_iff (members : List (String × Json)) (room : Nat) :
    memberNesting members ≤ room ↔ ∀ member ∈ members, member.2.nesting ≤ room := by
  induction members with
  | nil => simp [memberNesting]
  | cons member rest ih => rw [memberNesting, max_le_iff, ih, List.forall_mem_cons]

-- An array takes one level, and leaves the rest to each of its elements.
theorem nesting_arr_le_iff (items : List Json) (room : Nat) : (Json.arr items).nesting ≤ room ↔
    ∃ inner, room = inner + 1 ∧ ∀ item ∈ items, item.nesting ≤ inner := by
  rw [nesting]
  constructor
  · intro h
    exact ⟨room - 1, by omega, (itemNesting_le_iff _ _).mp (by omega)⟩
  · rintro ⟨inner, rfl, h⟩
    exact Nat.succ_le_succ ((itemNesting_le_iff _ _).mpr h)

-- So does an object.
theorem nesting_obj_le_iff (members : List (String × Json)) (room : Nat) :
    (Json.obj members).nesting ≤ room ↔
      ∃ inner, room = inner + 1 ∧ ∀ member ∈ members, member.2.nesting ≤ inner := by
  rw [nesting]
  constructor
  · intro h
    exact ⟨room - 1, by omega, (memberNesting_le_iff _ _).mp (by omega)⟩
  · rintro ⟨inner, rfl, h⟩
    exact Nat.succ_le_succ ((memberNesting_le_iff _ _).mpr h)

/-! ## 3. Values that others stand for -/

/-- An object that lists each name once, of whose members something holds. -/
def IsStruct (P : List (String × Json) → Prop) (v : Json) : Prop :=
  ∃ members, v = .obj members ∧ (members.map Prod.fst).Nodup ∧ P members

/-- An array whose elements stand for the elements of a list. -/
def IsList {α : Type} (StandsFor : Json → α → Prop) (v : Json) (as : List α) : Prop :=
  ∃ items, v = .arr items ∧ List.Forall₂ StandsFor items as

/-- One of the members has a name and stands for a value. -/
def HasMember {α : Type} (members : List (String × Json)) (name : String)
    (StandsFor : Json → α → Prop) (a : α) : Prop :=
  ∃ v, (name, v) ∈ members ∧ StandsFor v a

/-- One of the members has a name and stands for a value, or none has the name and the value is the
usual one. -/
def HasOptional {α : Type} (members : List (String × Json)) (name : String)
    (StandsFor : Json → α → Prop) (usual a : α) : Prop :=
  HasMember members name StandsFor a ∨ (name ∉ members.map Prod.fst ∧ a = usual)

/-- A text stands for itself. -/
def IsText (v : Json) (s : String) : Prop :=
  v = .str s

/-- A truth value stands for itself. -/
def IsBool (v : Json) (b : Bool) : Prop :=
  v = .bool b

/-- A number stands for itself. -/
def IsNumber (v : Json) (n : Nat) : Prop :=
  v = .int n

end Json

/-! ## 4. Documented libraries -/

/-- What a library documents about the values of a type, given the JSON value that represents each
of them and the values that each JSON value stands for. -/
structure JsonLibrary.Documented {α : Type} (lib : JsonLibrary α) (represent : α → Json)
    (StandsFor : Json → α → Prop) : Prop where
  /-- A text that spells a JSON value is read as what the JSON value stands for, unless too many
  arrays and objects are open at once. -/
  read {text : String} {v : Json} {a : α} : v.Spells text →
    v.nesting ≤ DocumentReader.maxNesting → StandsFor v a → lib.read? text = some a
  /-- Printing a value gives a text that spells the JSON value which represents it. -/
  compact (a : α) : ∃ text, lib.compact? a = some text ∧ (represent a).Spells text
  /-- So does printing it with one member or element on a line. -/
  pretty (a : α) : ∃ text, lib.pretty? a = some text ∧ (represent a).Spells text

end Bitwire
