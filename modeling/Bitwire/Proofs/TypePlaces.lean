import Bitwire.FieldPath
import Bitwire.Proofs.MadeTypes
import Bitwire.Proofs.StoredValues

/-!
# Places inside a type

A path leads from a type to the types inside it, and each of them has its first bit: a field of a
message starts behind the fields with lower numbers, an element of an array behind the elements
before it, and an alias changes nothing.  What is stored for the value at the end of a path stands
there.
-/

namespace Bitwire

/-- The value at the end of a path. -/
def Value.follow? (value : Value) : FieldPath → Option Value
  | .root => some value
  | .field path name => (value.follow? path).bind (Value.field? name)
  | .index path i => (value.follow? path).bind (Value.element? i)

namespace WireType

/-! ## 1. Paths -/

/-- `Inside root path type offset` says that `path` leads from `root` to a value of `type`, whose
first bit is `offset`. -/
inductive Inside (root : WireType) : FieldPath → WireType → (offset : Nat) → Prop
  | root : Inside root .root root 0
  | target {path : FieldPath} {name : String} {target : WireType} {offset : Nat} :
      Inside root path (.aliased name target) offset → Inside root path target offset
  | element {path : FieldPath} {element : WireType} {capacity offset : Nat} (i : Nat) :
      Inside root path (.array element capacity) offset → i < capacity →
        Inside root (path.index i) element (offset + i * element.width)
  | field {path : FieldPath} {m : MessageType} {offset : Nat} (f : Field) :
      Inside root path (.message m) offset → f ∈ m.fields →
        Inside root (path.field f.name) f.type (offset + m.precedingBits f)

/-! ## 2. One step -/

-- What is stored for an element is stored in its array.
theorem mem_stored_element {element : Format} {capacity offset i : Nat} (hi : i < capacity)
    {value : Option Value} {l : StoredLeaf}
    (hl : l ∈ element.stored (offset + element.elementOffset i)
      (element.store (value.bind (Value.element? i)))) :
    l ∈ (Format.array element capacity).stored offset
      ((Format.array element capacity).store value) := by
  apply (Format.mem_stored_array (by rw [List.length_map, List.length_range])).mpr
  refine ⟨i, _, ?_, hl⟩
  rw [List.getElem?_map, List.getElem?_range hi, Option.map_some]

-- What is stored for a field is stored in its message.
theorem mem_stored_field {m : MessageFormat} {p : FieldFormat} (hp : p ∈ m.fields.toList)
    {offset : Nat} {value : Option Value} {l : StoredLeaf}
    (hl : l ∈ p.format.stored (offset + p.offset) (p.format.store (value.bind (Value.field? p.name)))) :
    l ∈ (Format.message m).stored offset ((Format.message m).store value) := by
  change l ∈ Format.storedFields m.fields.toList offset (Format.storeFields m.fields.toList value)
  rw [Format.storeFields_eq_map]
  refine Format.mem_storedFields.mpr ⟨(p, _), ?_, hl⟩
  obtain ⟨i, hi, rfl⟩ := List.getElem_of_mem hp
  refine List.mem_iff_getElem.mpr ⟨i, by rwa [List.length_zip, List.length_map, Nat.min_self], ?_⟩
  rw [List.getElem_zip, List.getElem_map]

/-! ## 3. What a path leads to -/

namespace Inside

variable {root type : WireType} {path : FieldPath} {offset : Nat}
  (h : Inside root path type offset) (hroot : root.Made) (hwidth : root.width ≤ Format.maxWidth)

include h hroot hwidth

-- A type inside a type that was made was made, and has room in a message.
theorem made : type.Made ∧ type.width ≤ Format.maxWidth := by
  induction h with
  | root => exact ⟨hroot, hwidth⟩
  | target _ ih => exact ih
  | element i _ hi ih => exact ⟨(ih.1.element ih.2).1, (ih.1.element ih.2).2.1⟩
  | @field _ m _ f _ hf ih =>
    have hm : m.Made := ih.1
    exact ⟨hm.field hf, hm.sized_le hf⟩

-- The leaves of what is stored for the value at the end of a path are leaves of the whole.
theorem mem_stored (value : Value) {l : StoredLeaf}
    (hl : l ∈ type.format.stored offset (type.format.store (value.follow? path))) :
    l ∈ root.format.stored 0 (root.format.store (some value)) := by
  induction h with
  | root => exact hl
  | target _ ih => exact ih hl
  | @element path element capacity offset i hin hi ih =>
    obtain ⟨hmade, hle⟩ := hin.made hroot hwidth
    obtain ⟨helement, hsize, -⟩ := hmade.element hle
    apply ih
    apply mem_stored_element hi
    -- elements are as far apart as their type is wide
    rwa [Format.elementOffset, (helement.format hsize).2.2]
  | @field path m offset f hin hf ih =>
    obtain ⟨hmade, hle⟩ := hin.made hroot hwidth
    have hm : m.Made := hmade
    have hplaced := hm.consistent.mem_placed hf
    rw [← hm.consistent.format_fields] at hplaced
    apply ih
    exact mem_stored_field hplaced hl

end Inside

end WireType

end Bitwire
