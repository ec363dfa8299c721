import Bitwire.Record.Dynamic
import Bitwire.Proofs.Leaves

/-!
# Memory for stored values

A message all of whose bits are zero has a node for every element of its arrays.  It is made exactly
if each array by itself, however often it is repeated, is no larger than what can be asked for at
once, and what is made then depends on the format only.
-/

namespace Bitwire

namespace Format

/-! ## 1. Blank nodes -/

mutual

/-- The node of a format all of whose patterns are zero. -/
def blank : Format → Node
  | .array element capacity => .array (Array.replicate capacity element.blank)
  | .message ⟨name, ⟨fields⟩, totalBits⟩ =>
    .message ⟨name, ⟨fields⟩, totalBits⟩ (blanks fields).toArray
  | _ => .leaf 0

/-- The nodes of fields all of whose patterns are zero. -/
def blanks : List FieldFormat → List Node
  | [] => []
  | ⟨_, _, _, format⟩ :: rest => format.blank :: blanks rest

end

theorem blank_scalar {f : Format} (h : f.isScalar = true) : f.blank = .leaf 0 := by
  cases f <;> first | rfl | exact absurd h Bool.false_ne_true

theorem blanks_eq_map (fields : List FieldFormat) :
    blanks fields = fields.map fun f => f.format.blank := by
  induction fields with
  | nil => rfl
  | cons f fields ih => rw [blanks, ih, List.map_cons]

/-! ## 2. Memory that can be asked for -/

mutual

/-- Whether the memory of every array in a format can be asked for. -/
def isAllocatable : Format → Bool
  | .array element capacity =>
    decide (capacity * Node.byteSize ≤ maxAllocation) && element.isAllocatable
  | .message ⟨_, ⟨fields⟩, _⟩ => allAllocatable fields
  | _ => true

/-- Whether the memory of every array in fields can be asked for. -/
def allAllocatable : List FieldFormat → Bool
  | [] => true
  | ⟨_, _, _, format⟩ :: rest => format.isAllocatable && allAllocatable rest

end

theorem isAllocatable_scalar {f : Format} (h : f.isScalar = true) : f.isAllocatable = true := by
  cases f <;> first | rfl | exact absurd h Bool.false_ne_true

theorem isAllocatable_array {element : Format} {capacity : Nat} :
    (Format.array element capacity).isAllocatable = true ↔
      capacity * Node.byteSize ≤ maxAllocation ∧ element.isAllocatable = true := by
  rw [isAllocatable, Bool.and_eq_true, decide_eq_true_eq]

theorem allAllocatable_iff (fields : List FieldFormat) :
    allAllocatable fields = true ↔ ∀ f ∈ fields, f.format.isAllocatable = true := by
  induction fields with
  | nil => simp [allAllocatable]
  | cons f fields ih => rw [allAllocatable, Bool.and_eq_true, ih, List.forall_mem_cons]

theorem allocate?_scalar {f : Format} (h : f.isScalar = true) : f.allocate? = some (.leaf 0) := by
  cases f <;> first | rfl | exact absurd h Bool.false_ne_true

-- The nodes of fields are made one after the other if each is.
theorem allocateAll?_eq_some_iff {fields : List FieldFormat}
    (h : ∀ f ∈ fields, ∀ node, f.format.allocate? = some node ↔
      f.format.isAllocatable = true ∧ node = f.format.blank) (nodes : List Node) :
    allocateAll? fields = some nodes ↔ allAllocatable fields = true ∧ nodes = blanks fields := by
  induction fields generalizing nodes with
  | nil => simp [allocateAll?, allAllocatable, blanks, eq_comm]
  | cons f fields ih =>
    obtain ⟨hf, hfields⟩ := List.forall_mem_cons.mp h
    rw [allocateAll?, allAllocatable, blanks, Bool.and_eq_true, Option.bind_eq_some_iff]
    simp only [Option.map_eq_some_iff, hf, ih hfields]
    constructor
    · rintro ⟨_, ⟨hfirst, rfl⟩, _, ⟨hrest, rfl⟩, rfl⟩
      exact ⟨⟨hfirst, hrest⟩, rfl⟩
    · rintro ⟨⟨hfirst, hrest⟩, rfl⟩
      exact ⟨_, ⟨hfirst, rfl⟩, _, ⟨hrest, rfl⟩, rfl⟩

/-- A node is made exactly if its memory can be asked for, and then it is blank. -/
theorem allocate?_eq_some_iff {f : Format} {node : Node} :
    f.allocate? = some node ↔ f.isAllocatable = true ∧ node = f.blank := by
  induction f using Format.induct generalizing node with
  | scalar f hs =>
    rw [allocate?_scalar hs, blank_scalar hs, isAllocatable_scalar hs, Option.some.injEq]
    simp [eq_comm]
  | array element capacity ih =>
    rw [allocate?, isAllocatable_array, blank, Option.bind_eq_some_iff]
    simp only [ih]
    constructor
    · rintro ⟨_, ⟨helement, rfl⟩, hnode⟩
      split at hnode
      next hsize => exact ⟨⟨hsize, helement⟩, (Option.some.inj hnode).symm⟩
      next => cases hnode
    · rintro ⟨⟨hsize, helement⟩, rfl⟩
      exact ⟨_, ⟨helement, rfl⟩, if_pos hsize⟩
  | message m ih =>
    have hfields := allocateAll?_eq_some_iff fun f hf _ => ih f hf
    rw [allocate?, isAllocatable, blank, Option.map_eq_some_iff]
    simp only [hfields]
    constructor
    · rintro ⟨_, ⟨hall, rfl⟩, rfl⟩
      exact ⟨hall, rfl⟩
    · rintro ⟨hall, rfl⟩
      exact ⟨_, ⟨hall, rfl⟩, rfl⟩

end Format

/-! ## 3. Messages -/

namespace MessageFormat

/-- Whether the memory of every array in a message can be asked for. -/
def isAllocatable (m : MessageFormat) : Bool :=
  Format.allAllocatable m.fields.toList

theorem isAllocatable_field {m : MessageFormat} (h : m.isAllocatable = true) {f : FieldFormat}
    (hf : f ∈ m.fields.toList) : f.format.isAllocatable = true :=
  (Format.allAllocatable_iff _).mp h f hf

/-- The stored fields of a message are made exactly if their memory can be asked for.  Nothing else
goes wrong. -/
theorem allocate_eq {ε : Type} (m : MessageFormat) :
    (m.allocate : Except (Failure ε) (Array Node)) =
      if m.isAllocatable = true then .ok ⟨Format.blanks m.fields.toList⟩
      else .error .capacityOverflow := by
  have hsome := @Format.allocateAll?_eq_some_iff m.fields.toList
    fun _ _ _ => Format.allocate?_eq_some_iff
  rw [allocate]
  split
  next nodes hnodes =>
    obtain ⟨hall, rfl⟩ := (hsome nodes).mp hnodes
    exact (if_pos hall).symm
  next hnone =>
    refine (if_neg fun hall => ?_).symm
    cases hnone.symm.trans ((hsome _).mpr ⟨hall, rfl⟩)

theorem allocate_of {ε : Type} {m : MessageFormat} (h : m.isAllocatable = true) :
    (m.allocate : Except (Failure ε) (Array Node)) = .ok ⟨Format.blanks m.fields.toList⟩ := by
  rw [allocate_eq, if_pos h]

theorem allocate_of_not {ε : Type} {m : MessageFormat} (h : ¬m.isAllocatable = true) :
    (m.allocate : Except (Failure ε) (Array Node)) = .error .capacityOverflow := by
  rw [allocate_eq, if_neg h]

end MessageFormat

namespace DynamicMessage

/-- The message of a format all of whose patterns are zero. -/
def blank (m : MessageFormat) : DynamicMessage :=
  ⟨m, ⟨Format.blanks m.fields.toList⟩⟩

theorem zeroed_of {ε : Type} {m : MessageFormat} (h : m.isAllocatable = true) :
    (zeroed m : Except (Failure ε) DynamicMessage) = .ok (blank m) := by
  rw [zeroed, MessageFormat.allocate_of h]
  rfl

theorem zeroed_of_not {ε : Type} {m : MessageFormat} (h : ¬m.isAllocatable = true) :
    (zeroed m : Except (Failure ε) DynamicMessage) = .error .capacityOverflow := by
  rw [zeroed, MessageFormat.allocate_of_not h]
  rfl

end DynamicMessage

end Bitwire
