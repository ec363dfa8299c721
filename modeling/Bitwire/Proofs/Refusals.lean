import Bitwire.Proofs.StoredValues

/-!
# Why a value is refused

Storing a value stops at the first thing that is wrong with it.  A number is refused for its kind or
its range.  An array is refused for its first element that is refused, and a record for its first
entry that has no field or is refused; whatever stands before is accepted.
-/

namespace Bitwire

/-! ## 1. Results -/

theorem map_eq_error_iff {ε α β : Type} {x : Except ε α} {g : α → β} {e : ε} :
    x.map g = .error e ↔ x = .error e := by
  cases x with
  | ok a => simp [Except.map]
  | error e' => simp [Except.map]

theorem error_eq_error_iff {ε α : Type} {e e' : ε} :
    (Except.error e : Except ε α) = .error e' ↔ e' = e := by
  rw [Except.error.injEq, eq_comm]

-- A check that can fail in one way fails exactly if it does not succeed.
theorem error_iff_of_ok_iff {ε α : Type} {x : Except ε α} {P : Prop} {a : α} {e₀ : ε}
    (hok : ∀ b, x = .ok b ↔ P ∧ b = a) (herror : ∀ e, x = .error e → e = e₀) (e : ε) :
    x = .error e ↔ ¬P ∧ e = e₀ := by
  constructor
  · intro h
    refine ⟨fun hP => ?_, herror e h⟩
    cases h.symm.trans ((hok a).mpr ⟨hP, rfl⟩)
  · rintro ⟨hP, rfl⟩
    cases hx : x with
    | ok b => exact absurd ((hok b).mp hx).1 hP
    | error e' => rw [herror e' hx]

-- The first element of a list with a property, behind elements with another.
theorem exists_split_cons_iff {α : Type} {A : α → Prop} {B : List α → α → Prop} {x : α}
    {rest : List α} :
    (∃ front y back, x :: rest = front ++ y :: back ∧ (∀ z ∈ front, A z) ∧ B front y) ↔
      B [] x ∨ A x ∧ ∃ front y back, rest = front ++ y :: back ∧ (∀ z ∈ front, A z) ∧
        B (x :: front) y := by
  constructor
  · rintro ⟨front, y, back, hsplit, hfront, hy⟩
    cases front with
    | nil =>
      obtain ⟨rfl, rfl⟩ := List.cons.inj hsplit
      exact Or.inl hy
    | cons z front =>
      obtain ⟨rfl, rfl⟩ := List.cons.inj hsplit
      obtain ⟨hz, hfront⟩ := List.forall_mem_cons.mp hfront
      exact Or.inr ⟨hz, front, y, back, rfl, hfront, hy⟩
  · rintro (hx | ⟨hx, front, y, back, rfl, hfront, hy⟩)
    · exact ⟨[], x, rest, rfl, List.forall_mem_nil _, hx⟩
    · exact ⟨x :: front, y, back, rfl, List.forall_mem_cons.mpr ⟨hx, hfront⟩, hy⟩

/-! ## 2. Scalars -/

namespace Value

/-- What is wrong with a value that is no integer of the kind and width asked for. -/
def numberFault (value : Value) (kind : String) (bits : Nat) (path : FieldPath) : ValidationError :=
  match value.asInt? with
  | some z => .valueOutOfRange path z bits
  | none => .typeMismatch path kind

theorem numberFault_iff {value : Value} {kind : String} {bits : Nat} {path : FieldPath}
    {e : ValidationError} {P : Int → Prop} :
    (¬(∃ z, value.asInt? = some z ∧ P z) ∧ e = value.numberFault kind bits path) ↔
      (value.asInt? = none ∧ e = .typeMismatch path kind) ∨
        ∃ z, value.asInt? = some z ∧ ¬P z ∧ e = .valueOutOfRange path z bits := by
  rw [numberFault]
  cases value.asInt? <;> simp

theorem unsignedPattern_error {value : Value} {bits : Nat} {path : FieldPath} {e : ValidationError}
    (h : value.unsignedPattern bits path = .error e) :
    e = value.numberFault "unsigned integer" bits path := by
  cases value with
  | int | uint =>
    rw [unsignedPattern] at h
    split at h
    · cases h
    · exact (Except.error.inj h).symm
  | bool | array | message => exact (Except.error.inj h).symm

theorem signedPattern_error {value : Value} {bits : Nat} {path : FieldPath} {e : ValidationError}
    (h : value.signedPattern bits path = .error e) :
    e = value.numberFault "signed integer" bits path := by
  cases value with
  | int | uint =>
    rw [signedPattern] at h
    split at h
    · cases h
    · exact (Except.error.inj h).symm
  | bool | array | message => exact (Except.error.inj h).symm

end Value

namespace Format

/-- What is wrong with a value that is not of the kind or not in the range of a format. -/
def fault : Format → Value → FieldPath → ValidationError
  | .bool, _, path => .typeMismatch path "bool"
  | .int bits, value, path => value.numberFault "signed integer" bits path
  | .uint bits, value, path => value.numberFault "unsigned integer" bits path
  | .enum e, value, path => value.numberFault "unsigned integer" e.bits path
  | .array .., _, path => .typeMismatch path "array"
  | .message _, _, path => .typeMismatch path "message"

-- A scalar that is refused is refused for its kind or its range.
theorem eq_fault_of_toNode {f : Format} (hs : f.isScalar = true) {value : Value} {path : FieldPath}
    {e : Failure ValidationError} (herror : value.toNode f path = .error e) :
    e = .returned (f.fault value path) := by
  cases f with
  | bool =>
    cases value with
    | bool b => cases herror
    | int | uint | array | message => exact (Except.error.inj herror).symm
  | int bits =>
    rw [Value.toNode_int, map_eq_error_iff] at herror
    obtain ⟨e', he, rfl⟩ := Failure.ofExcept_eq_error_iff.mp herror
    exact congrArg Failure.returned (Value.signedPattern_error he)
  | uint bits =>
    rw [Value.toNode_uint, map_eq_error_iff] at herror
    obtain ⟨e', he, rfl⟩ := Failure.ofExcept_eq_error_iff.mp herror
    exact congrArg Failure.returned (Value.unsignedPattern_error he)
  | enum e =>
    rw [Value.toNode_enum, map_eq_error_iff] at herror
    obtain ⟨e', he, rfl⟩ := Failure.ofExcept_eq_error_iff.mp herror
    exact congrArg Failure.returned (Value.unsignedPattern_error he)
  | array | message => exact absurd hs Bool.false_ne_true

/-- A scalar is refused exactly if it is not accepted. -/
theorem Sound.toNode_scalar_error_iff {f : Format} (h : f.Sound) (hs : f.isScalar = true)
    (value : Value) (path : FieldPath) (e : ValidationError) :
    value.toNode f path = .error (.returned e) ↔ ¬f.Accepts value ∧ e = f.fault value path := by
  rw [error_iff_of_ok_iff (h.toNode_scalar_ok_iff hs value path) fun _ => eq_fault_of_toNode hs,
    Failure.returned.injEq]

theorem Sound.exists_toNode_iff {f : Format} (h : f.Sound) (hp : f.Proper)
    (ha : f.isAllocatable = true) (value : Value) (path : FieldPath) :
    (∃ node, value.toNode f path = .ok node) ↔ f.Accepts value := by
  simp only [h.toNode_ok_iff hp ha, exists_and_left, exists_eq, and_true]

end Format

/-! ## 3. Elements and entries -/

namespace Value

-- An array is refused for its first element that is refused.
theorem itemNodes_error_iff {element : Format}
    (h : ∀ (value : Value) (path : FieldPath),
      (∃ node, value.toNode element path = .ok node) ↔ element.Accepts value)
    (items : List Value) (path : FieldPath) (stored : Array Node) (e : Failure ValidationError) :
    itemNodes items element path stored = .error e ↔
      ∃ front item back, items = front ++ item :: back ∧ (∀ before ∈ front, element.Accepts before) ∧
        item.toNode element (path.index (stored.size + front.length)) = .error e := by
  induction items generalizing stored with
  | nil => simp [itemNodes]
  | cons item rest ih =>
    have hitem := h item (path.index stored.size)
    have hfirst := @exists_split_cons_iff _ element.Accepts
      (fun front item => item.toNode element (path.index (stored.size + front.length)) = .error e)
      item rest
    rw [hfirst, itemNodes, List.length_nil, Nat.add_zero, ← hitem]
    cases item.toNode element (path.index stored.size) with
    | error e' =>
      rw [or_iff_left fun h => by simp at h, error_eq_error_iff]
      exact error_eq_error_iff.symm
    | ok node =>
      rw [or_iff_right fun h => by simp at h, and_iff_right ⟨node, rfl⟩]
      -- one more element stands before those that follow
      simp only [ih, Array.size_push, List.length_cons, Nat.add_assoc, Nat.add_comm 1]

end Value

namespace MessageFormat

/-- Whether an entry of a record is refused with an error: it has no field, or the field's format
refuses its value. -/
def Refuses (m : MessageFormat) (path : FieldPath) (entry : String × Value)
    (e : Failure ValidationError) : Prop :=
  ((∀ f ∈ m.fields.toList, f.name ≠ entry.1) ∧
    e = .returned (.unknownField (path.field entry.1))) ∨
    ∃ f ∈ m.fields.toList, f.name = entry.1 ∧
      entry.2.toNode f.format (path.field entry.1) = .error e

namespace Proper

variable {m : MessageFormat} (hp : m.Proper)
  (h : ∀ f ∈ m.fields.toList, ∀ (value : Value) (path : FieldPath),
    (∃ node, value.toNode f.format path = .ok node) ↔ f.format.Accepts value)

include hp h

-- One entry is stored and the others follow, or it is refused and they do not matter.
theorem entryNodes_cons (entry : String × Value) (rest : List (String × Value)) (path : FieldPath)
    (nodes : Array Node) :
    (Format.AcceptEntry m.fields.toList entry.1 entry.2 ∧ (∀ e, ¬m.Refuses path entry e) ∧
      ∃ nodes', Value.entryNodes (entry :: rest) m path nodes =
        Value.entryNodes rest m path nodes') ∨
    (¬Format.AcceptEntry m.fields.toList entry.1 entry.2 ∧ ∃ e,
      (∀ e', m.Refuses path entry e' ↔ e' = e) ∧
        Value.entryNodes (entry :: rest) m path nodes = .error e) := by
  obtain ⟨name, value⟩ := entry
  rw [Format.acceptEntry_iff, Value.entryNodes]
  cases hnamed : m.named? name with
  | none =>
    have hunknown := named?_eq_none.mp hnamed
    refine Or.inr ⟨?_, _, fun e' => ⟨?_, fun he => Or.inl ⟨hunknown, he⟩⟩, rfl⟩
    · rintro ⟨f, hf, hname, -⟩
      exact hunknown f hf hname
    · rintro (⟨-, he⟩ | ⟨f, hf, hname, -⟩)
      · exact he
      · exact absurd hname (hunknown f hf)
  | some found =>
    obtain ⟨i, field⟩ := found
    obtain ⟨hfield, hname⟩ := of_named? hnamed
    have hmem := List.mem_of_getElem? hfield
    -- what the entry's value meets is this field
    have hrefuses : ∀ e, m.Refuses path (name, value) e ↔
        value.toNode field.format (path.field name) = .error e := by
      refine fun e => ⟨?_, fun herror => Or.inr ⟨field, hmem, hname, herror⟩⟩
      rintro (⟨hunknown, -⟩ | ⟨f, hf, hf', herror⟩)
      · exact absurd hname (hunknown field hmem)
      · rwa [← hp.eq_of_name hf hmem (hf'.trans hname.symm)]
    have haccepts : (∃ f ∈ m.fields.toList, f.name = name ∧ f.format.Accepts value) ↔
        ∃ node, value.toNode field.format (path.field name) = .ok node := by
      rw [h field hmem]
      refine ⟨?_, fun haccepts => ⟨field, hmem, hname, haccepts⟩⟩
      rintro ⟨f, hf, hf', haccepts⟩
      rwa [← hp.eq_of_name hf hmem (hf'.trans hname.symm)]
    simp only [haccepts, hrefuses]
    cases value.toNode field.format (path.field name) with
    | error e => exact Or.inr ⟨by simp, e, fun e' => error_eq_error_iff, rfl⟩
    | ok node => exact Or.inl ⟨⟨node, rfl⟩, by simp, _, rfl⟩

-- A record is refused for its first entry that is refused.
theorem entryNodes_error_iff (entries : List (String × Value)) (path : FieldPath)
    (nodes : Array Node) (e : Failure ValidationError) :
    Value.entryNodes entries m path nodes = .error e ↔
      ∃ front entry back, entries = front ++ entry :: back ∧
        (∀ before ∈ front, Format.AcceptEntry m.fields.toList before.1 before.2) ∧
          m.Refuses path entry e := by
  induction entries generalizing nodes with
  | nil => simp [Value.entryNodes]
  | cons entry rest ih =>
    have hfirst := @exists_split_cons_iff _
      (fun entry => Format.AcceptEntry m.fields.toList entry.1 entry.2)
      (fun _ entry => m.Refuses path entry e) entry rest
    rw [hfirst]
    rcases hp.entryNodes_cons h entry rest path nodes with
      ⟨haccepts, hnone, nodes', hrest⟩ | ⟨hno, e', honly, herror⟩
    · rw [hrest, ih nodes', or_iff_right (hnone e), and_iff_right haccepts]
    · rw [herror, error_eq_error_iff, or_iff_left fun h => hno h.1, honly e]

end Proper

end MessageFormat

/-! ## 4. Failures -/

namespace Value

variable {element : Format}

-- What elements fail with is what one of them fails with.
theorem exists_of_itemNodes {items : List Value} {path : FieldPath} {stored : Array Node}
    {e : Failure ValidationError} (h : itemNodes items element path stored = .error e) :
    ∃ item ∈ items, ∃ path, item.toNode element path = .error e := by
  induction items generalizing stored with
  | nil => cases h
  | cons item rest ih =>
    rw [itemNodes] at h
    cases hitem : item.toNode element (path.index stored.size) with
    | error e' =>
      rw [hitem] at h
      obtain rfl := Except.error.inj h
      exact ⟨item, List.mem_cons_self, _, hitem⟩
    | ok node =>
      rw [hitem] at h
      obtain ⟨item', hmem, hitem'⟩ := ih h
      exact ⟨item', List.mem_cons_of_mem _ hmem, hitem'⟩

-- What entries fail with is that one has no field, or what the value of one fails with.
theorem exists_of_entryNodes {m : MessageFormat} {entries : List (String × Value)} {path : FieldPath}
    {nodes : Array Node} {e : Failure ValidationError}
    (h : entryNodes entries m path nodes = .error e) : (∃ v, e = .returned v) ∨
      ∃ f ∈ m.fields.toList, ∃ value path, Value.toNode value f.format path = .error e := by
  induction entries generalizing nodes with
  | nil => cases h
  | cons entry rest ih =>
    obtain ⟨name, value⟩ := entry
    rw [entryNodes] at h
    cases hnamed : m.named? name with
    | none =>
      rw [hnamed] at h
      exact Or.inl ⟨_, (Except.error.inj h).symm⟩
    | some found =>
      obtain ⟨i, field⟩ := found
      obtain ⟨hfield, -⟩ := MessageFormat.of_named? hnamed
      rw [hnamed] at h
      dsimp only at h
      cases hvalue : value.toNode field.format (path.field name) with
      | error e' =>
        rw [hvalue] at h
        obtain rfl := Except.error.inj h
        exact Or.inr ⟨field, List.mem_of_getElem? hfield, value, _, hvalue⟩
      | ok node =>
        rw [hvalue] at h
        exact ih h

end Value

/-- If the memory can be asked for, a value that is not stored is refused with an error. -/
theorem Format.exists_returned_of_toNode {f : Format} (ha : f.isAllocatable = true) {value : Value}
    {path : FieldPath} {e : Failure ValidationError} (h : value.toNode f path = .error e) :
    ∃ v, e = .returned v := by
  induction f using Format.induct generalizing value path with
  | scalar f hs => exact ⟨_, eq_fault_of_toNode hs h⟩
  | array element capacity ih =>
    have helement := (isAllocatable_array.mp ha).2
    cases value with
    | array items =>
      rw [Value.toNode] at h
      split at h
      next => exact ⟨_, (Except.error.inj h).symm⟩
      next =>
        obtain ⟨item, -, path, hitem⟩ := Value.exists_of_itemNodes (map_eq_error_iff.mp h)
        exact ih helement hitem
    | bool | int | uint | message => exact ⟨_, (Except.error.inj h).symm⟩
  | message m ih =>
    have hm : MessageFormat.isAllocatable m = true := ha
    cases value with
    | message entries =>
      rw [Value.toNode, MessageFormat.allocate_of hm] at h
      rcases Value.exists_of_entryNodes (map_eq_error_iff.mp h) with hreturned | ⟨f, hf, _, _, hvalue⟩
      · exact hreturned
      · exact ih f hf (MessageFormat.isAllocatable_field hm hf) hvalue
    | bool | int | uint | array => exact ⟨_, (Except.error.inj h).symm⟩

end Bitwire
