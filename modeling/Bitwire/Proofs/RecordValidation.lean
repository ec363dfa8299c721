import Bitwire.Proofs.NameOrder
import Bitwire.Proofs.Refusals
import Bitwire.Proofs.StrictDecoding

/-!
# Records that conform to their type

A value conforms to a declared type if it has the type's shape and its numbers fit in the declared
widths; fields of a record may be missing.  A record that does not conform is refused for the first
thing that violates its type, entries taken in the order of their names.  A record that conforms is
encoded, and no number in it is cut.
-/

namespace Bitwire

/-! ## 1. Conforming values -/

/-- Values all of whose records list each name once, in ascending order. -/
inductive Value.Ordered : Value → Prop
  | bool (b : Bool) : Ordered (.bool b)
  | int (v : Int64) : Ordered (.int v)
  | uint (v : UInt64) : Ordered (.uint v)
  | array {items : List Value} : (∀ item ∈ items, Ordered item) → Ordered (.array items)
  | message {entries : List (String × Value)} :
      Record.Ordered entries → (∀ entry ∈ entries, Ordered entry.2) → Ordered (.message entries)

namespace WireType

/-- Whether a number fits in the declared width of an integer or an enum. -/
def Holds : WireType → Int → Prop
  | .int bits, z => -2 ^ (bits - 1) ≤ z ∧ z < 2 ^ (bits - 1)
  | .uint bits, z => 0 ≤ z ∧ z < 2 ^ bits
  | .aliased _ target, z => target.Holds z
  | .enum e, z => 0 ≤ z ∧ z < 2 ^ e.bits
  | _, _ => False

mutual

/-- Whether a value conforms to a declared type. -/
def Conforms : WireType → Value → Prop
  | .bool, .bool _ => True
  | .int bits, value => ∃ z, value.asInt? = some z ∧ (WireType.int bits).Holds z
  | .uint bits, value => ∃ z, value.asInt? = some z ∧ (WireType.uint bits).Holds z
  | .aliased _ target, value => target.Conforms value
  | .enum e, value => ∃ z, value.asInt? = some z ∧ (WireType.enum e).Holds z
  | .array element capacity, .array items =>
    items.length = capacity ∧ ∀ item ∈ items, element.Conforms item
  | .message ⟨_, fields, _, _⟩, .message entries =>
    ∀ entry ∈ entries, EntryConforms fields entry.1 entry.2
  | _, _ => False

/-- Whether a field of a name is declared to whose type a value conforms. -/
def EntryConforms : List Field → String → Value → Prop
  | [], _, _ => False
  | ⟨_, name, type⟩ :: rest, name', value =>
    (name = name' ∧ type.Conforms value) ∨ EntryConforms rest name' value

end

theorem entryConforms_iff (fields : List Field) (name : String) (value : Value) :
    EntryConforms fields name value ↔ ∃ f ∈ fields, f.name = name ∧ f.type.Conforms value := by
  induction fields with
  | nil => simp [EntryConforms]
  | cons f rest ih => rw [EntryConforms, ih, List.exists_mem_cons_iff]

/-- The kind of value that a type asks for, in words. -/
def kind : WireType → String
  | .bool => "bool"
  | .int _ => "signed integer"
  | .uint _ => "unsigned integer"
  | .aliased _ target => target.kind
  | .enum _ => "unsigned integer"
  | .array .. => "array"
  | .message _ => "message"

/-- Whether a value is of the kind that a type asks for. -/
def takes : WireType → Value → Bool
  | .bool, .bool _ => true
  | .int _, value => value.asInt?.isSome
  | .uint _, value => value.asInt?.isSome
  | .aliased _ target, value => target.takes value
  | .enum _, value => value.asInt?.isSome
  | .array .., .array _ => true
  | .message _, .message _ => true
  | _, _ => false

/-- `FirstViolation type value path e` says that `e` is what a walk through the value at `path`
meets first that violates `type`.  An array's length comes before its elements, the elements are
taken by index, and the entries of a record in the order of the bytes of their names. -/
inductive FirstViolation : WireType → Value → FieldPath → ValidationError → Prop
  | mismatch {type : WireType} {value : Value} {path : FieldPath} :
      type.takes value = false → FirstViolation type value path (.typeMismatch path type.kind)
  | range {type : WireType} {value : Value} {path : FieldPath} {z : Int} :
      type.takes value = true → value.asInt? = some z → ¬type.Holds z →
      FirstViolation type value path (.valueOutOfRange path z type.width)
  | aliased {name : String} {target : WireType} {value : Value} {path : FieldPath}
      {e : ValidationError} :
      FirstViolation target value path e → FirstViolation (.aliased name target) value path e
  | length {element : WireType} {capacity : Nat} {items : List Value} {path : FieldPath} :
      items.length ≠ capacity →
      FirstViolation (.array element capacity) (.array items) path
        (.arrayLength path capacity items.length)
  | element {element : WireType} {capacity : Nat} {items front back : List Value} {item : Value}
      {path : FieldPath} {e : ValidationError} :
      items.length = capacity → items = front ++ item :: back →
      (∀ before ∈ front, element.Conforms before) →
      FirstViolation element item (path.index front.length) e →
      FirstViolation (.array element capacity) (.array items) path e
  | unknown {m : MessageType} {entries : List (String × Value)} {entry : String × Value}
      {path : FieldPath} :
      entry ∈ entries → (∀ f ∈ m.fields, f.name ≠ entry.1) →
      (∀ before ∈ entries, nameBytes before.1 < nameBytes entry.1 →
        EntryConforms m.fields before.1 before.2) →
      FirstViolation (.message m) (.message entries) path (.unknownField (path.field entry.1))
  | field {m : MessageType} {f : Field} {entries : List (String × Value)} {entry : String × Value}
      {path : FieldPath} {e : ValidationError} :
      entry ∈ entries → f ∈ m.fields → f.name = entry.1 →
      (∀ before ∈ entries, nameBytes before.1 < nameBytes entry.1 →
        EntryConforms m.fields before.1 before.2) →
      FirstViolation f.type entry.2 (path.field entry.1) e →
      FirstViolation (.message m) (.message entries) path e

end WireType

/-! ## 2. Acceptance -/

-- The fields of a format are those of the type.
theorem MessageType.Consistent.exists_placed_iff {m : MessageType} (h : m.Consistent) {name : String}
    {P : Format → Prop} : (∃ p ∈ m.format.fields.toList, p.name = name ∧ P p.format) ↔
      ∃ f ∈ m.fields, f.name = name ∧ P f.type.format := by
  rw [h.format_fields]
  constructor
  · rintro ⟨p, hp, rfl, hP⟩
    obtain ⟨f, hf, -, hname, hformat⟩ := mem_placedFields hp
    exact ⟨f, mem_sortedFields.mp hf, hname.symm, hformat ▸ hP⟩
  · rintro ⟨f, hf, rfl, hP⟩
    exact ⟨_, h.mem_placed hf, rfl, hP⟩

theorem MessageType.Consistent.forall_placed_name_ne_iff {m : MessageType} (h : m.Consistent)
    {name : String} : (∀ p ∈ m.format.fields.toList, p.name ≠ name) ↔ ∀ f ∈ m.fields, f.name ≠ name := by
  have hname := not_congr (@h.exists_placed_iff _ name fun _ => True)
  simpa only [and_true, not_exists, not_and] using hname

-- An entry conforms if a field of the format accepts it.
theorem MessageType.Consistent.entryConforms_iff_accepts {m : MessageType} (h : m.Consistent)
    {name : String} {value : Value}
    (hfields : ∀ f ∈ m.fields, f.type.Conforms value ↔ f.type.format.Accepts value) :
    WireType.EntryConforms m.fields name value ↔
      Format.AcceptEntry m.format.fields.toList name value := by
  rw [WireType.entryConforms_iff, Format.acceptEntry_iff,
    h.exists_placed_iff (P := (Format.Accepts · value))]
  exact exists_congr fun f => and_congr_right fun hf => and_congr_right fun _ => hfields f hf

namespace WireType

/-- What conforms to a type is what its format accepts. -/
theorem Made.conforms_iff {type : WireType} (h : type.Made) (hw : type.width ≤ Format.maxWidth)
    (value : Value) : type.Conforms value ↔ type.format.Accepts value := by
  induction type using WireType.induct generalizing value with
  | scalar type hs =>
    cases type with
    | bool => cases value <;> exact Iff.rfl
    | int | uint | enum => rw [Conforms, WireType.format, Format.Accepts]; rfl
    | aliased | array | message => exact absurd hs Bool.false_ne_true
  | aliased name target ih => exact ih h hw value
  | array element capacity ih =>
    obtain ⟨helement, hsize, -⟩ := h.element hw
    cases value with
    | array items =>
      exact and_congr_right fun _ => forall₂_congr fun item _ => ih helement hsize item
    | bool | int | uint | message => exact Iff.rfl
  | message m ih =>
    have hm : m.Made := h
    cases value with
    | message entries =>
      change (∀ entry ∈ entries, EntryConforms m.fields entry.1 entry.2) ↔
        ∀ entry ∈ entries, Format.AcceptEntry m.format.fields.toList entry.1 entry.2
      refine forall₂_congr fun entry _ => hm.consistent.entryConforms_iff_accepts fun f hf => ?_
      exact ih f hf (hm.field hf) (hm.sized_le hf) entry.2
    | bool | int | uint | array => exact Iff.rfl

end WireType

/-! ## 3. Refusal -/

-- Before an entry of an ordered record stand the entries whose names have smaller bytes.
theorem Record.Ordered.forall_front_iff {front back : Record} {entry : String × Value}
    (h : Record.Ordered (front ++ entry :: back)) {P : String × Value → Prop} :
    (∀ before ∈ front, P before) ↔ ∀ before ∈ front ++ entry :: back,
      nameBytes before.1 < nameBytes entry.1 → P before := by
  obtain ⟨-, hback, hfront⟩ := List.pairwise_append.mp h
  constructor
  · intro hall before hmem hlt
    rw [nameBytes_lt_iff] at hlt
    rcases List.mem_append.mp hmem with hmem | hmem
    · exact hall before hmem
    · rcases List.mem_cons.mp hmem with rfl | hmem
      · exact absurd hlt (lt_irrefl _)
      · exact absurd hlt (lt_asymm ((List.pairwise_cons.mp hback).1 before hmem))
  · intro hall before hmem
    refine hall before (List.mem_append_left _ hmem) ?_
    rw [nameBytes_lt_iff]
    exact hfront before hmem entry List.mem_cons_self

namespace WireType

-- A number violates its type if it does not conform.
theorem firstViolation_scalar_iff {type : WireType} (hs : type.isScalar = true) (value : Value)
    (path : FieldPath) (e : ValidationError) :
    type.FirstViolation value path e ↔ ¬type.Conforms value ∧ e = type.format.fault value path := by
  cases type with
  | bool =>
    constructor
    · rintro (htakes | ⟨htakes, hz, -⟩)
      · cases value with
        | bool => cases htakes
        | int | uint | array | message => exact ⟨not_false, rfl⟩
      · cases value with
        | bool => cases hz
        | int | uint | array | message => cases htakes
    · rintro ⟨hno, rfl⟩
      refine .mismatch ?_
      cases value with
      | bool => exact absurd trivial hno
      | int | uint | array | message => rfl
  | int | uint | enum =>
    rw [Conforms]
    change _ ↔ _ ∧ e = value.numberFault _ _ path
    rw [Value.numberFault_iff]
    constructor
    · rintro (htakes | ⟨-, hz, hrange⟩)
      · exact Or.inl ⟨Option.isNone_iff_eq_none.mp (Option.isSome_eq_false_iff.mp htakes), rfl⟩
      · exact Or.inr ⟨_, hz, hrange, rfl⟩
    · rintro (⟨hnone, rfl⟩ | ⟨z, hz, hrange, rfl⟩)
      · exact .mismatch (by rw [takes, hnone]; rfl)
      · exact .range (by rw [takes, hz]; rfl) hz hrange
  | aliased | array | message => exact absurd hs Bool.false_ne_true

-- A value of another kind violates its type by its kind.
theorem firstViolation_of_not_takes {type : WireType} {value : Value}
    (h : type.takes value = false) (path : FieldPath) (e : ValidationError) :
    type.FirstViolation value path e ↔ e = .typeMismatch path type.kind := by
  constructor
  · intro hfirst
    induction hfirst with
    | mismatch => rfl
    | range htakes => exact absurd (htakes.symm.trans h) Bool.noConfusion
    | aliased _ ih => exact ih h
    | length | element | unknown | field => cases h
  · rintro rfl
    exact .mismatch h

-- An array violates its type by its length, or by its first element that violates the element type.
theorem firstViolation_array_iff {element : WireType} {capacity : Nat} {items : List Value}
    {path : FieldPath} {e : ValidationError} :
    (array element capacity).FirstViolation (.array items) path e ↔
      (items.length ≠ capacity ∧ e = .arrayLength path capacity items.length) ∨
        (items.length = capacity ∧ ∃ front item back, items = front ++ item :: back ∧
          (∀ before ∈ front, element.Conforms before) ∧
            element.FirstViolation item (path.index front.length) e) := by
  constructor
  · rintro (htakes | ⟨_, hz, _⟩ | _ | hlength | ⟨hlength, hsplit, hfront, hitem⟩)
    · cases htakes
    · cases hz
    · exact Or.inl ⟨hlength, rfl⟩
    · exact Or.inr ⟨hlength, _, _, _, hsplit, hfront, hitem⟩
  · rintro (⟨hlength, rfl⟩ | ⟨hlength, front, item, back, hsplit, hfront, hitem⟩)
    · exact .length hlength
    · exact .element hlength hsplit hfront hitem

-- A record violates its type by its first entry that has no field or violates the field's type.
theorem firstViolation_message_iff {m : MessageType} {entries : Record} (h : Record.Ordered entries)
    {path : FieldPath} {e : ValidationError} :
    (message m).FirstViolation (.message entries) path e ↔
      ∃ front entry back, entries = front ++ entry :: back ∧
        (∀ before ∈ front, EntryConforms m.fields before.1 before.2) ∧
          (((∀ f ∈ m.fields, f.name ≠ entry.1) ∧ e = .unknownField (path.field entry.1)) ∨
            ∃ f ∈ m.fields, f.name = entry.1 ∧
              f.type.FirstViolation entry.2 (path.field entry.1) e) := by
  constructor
  · intro hfirst
    cases hfirst with
    | mismatch htakes => cases htakes
    | range _ hz _ => cases hz
    | unknown hentry hnone hbefore =>
      obtain ⟨front, back, rfl⟩ := List.append_of_mem hentry
      exact ⟨front, _, back, rfl, h.forall_front_iff.mpr hbefore, Or.inl ⟨hnone, rfl⟩⟩
    | field hentry hf hname hbefore hvalue =>
      obtain ⟨front, back, rfl⟩ := List.append_of_mem hentry
      exact ⟨front, _, back, rfl, h.forall_front_iff.mpr hbefore, Or.inr ⟨_, hf, hname, hvalue⟩⟩
  · rintro ⟨front, entry, back, rfl, hfront, hviolation⟩
    have hentry : entry ∈ front ++ entry :: back := List.mem_append_right _ List.mem_cons_self
    have hbefore := h.forall_front_iff.mp hfront
    rcases hviolation with ⟨hnone, rfl⟩ | ⟨f, hf, hname, hvalue⟩
    · exact .unknown hentry hnone hbefore
    · exact .field hentry hf hname hbefore hvalue

-- An array is refused for what it violates first if its elements are.
theorem Made.toNode_array_error_iff {element : WireType} {capacity : Nat} {items : List Value}
    {e : ValidationError} (h : (array element capacity).Made)
    (hw : (array element capacity).width ≤ Format.maxWidth)
    (ha : element.format.isAllocatable = true)
    (hitems : ∀ item ∈ items, ∀ path,
      item.toNode element.format path = .error (.returned e) ↔ element.FirstViolation item path e)
    (path : FieldPath) :
    (Value.array items).toNode (array element capacity).format path = .error (.returned e) ↔
      (array element capacity).FirstViolation (.array items) path e := by
  obtain ⟨helement, hsize, -⟩ := h.element hw
  obtain ⟨hsound, hproper, -⟩ := helement.format hsize
  rw [firstViolation_array_iff, WireType.format, Value.toNode]
  by_cases hlength : items.length = capacity
  · rw [if_neg (not_not.mpr hlength), map_eq_error_iff,
      Value.itemNodes_error_iff (hsound.exists_toNode_iff hproper ha),
      or_iff_right fun h => h.1 hlength, and_iff_right hlength]
    refine exists_congr fun front => exists_congr fun item => exists_congr fun back =>
      and_congr_right fun hsplit => and_congr ?_ ?_
    · exact forall₂_congr fun before _ => (helement.conforms_iff hsize before).symm
    · rw [Array.size_empty, Nat.zero_add]
      exact hitems item (hsplit ▸ List.mem_append_right _ List.mem_cons_self) _
  · rw [if_pos hlength, or_iff_left fun h => hlength h.1, and_iff_right hlength, error_eq_error_iff,
      Failure.returned.injEq]

-- A record is refused for what it violates first if the values of its entries are.
theorem Made.toNode_message_error_iff {m : MessageType} {entries : Record} {e : ValidationError}
    (h : (message m).Made) (hw : (message m).width ≤ Format.maxWidth)
    (ha : m.format.isAllocatable = true) (hentries : Record.Ordered entries)
    (hvalues : ∀ f ∈ m.fields, ∀ entry ∈ entries, ∀ path,
      entry.2.toNode f.type.format path = .error (.returned e) ↔
        f.type.FirstViolation entry.2 path e)
    (path : FieldPath) :
    (Value.message entries).toNode (message m).format path = .error (.returned e) ↔
      (message m).FirstViolation (.message entries) path e := by
  have hm : m.Made := h
  obtain ⟨hsound, hproper, -⟩ := h.format hw
  have hok : ∀ p ∈ m.format.fields.toList, ∀ (value : Value) (path : FieldPath),
      (∃ node, value.toNode p.format path = .ok node) ↔ p.format.Accepts value := fun p hp =>
    (MessageFormat.Sound.field hsound hp).exists_toNode_iff (MessageFormat.Proper.field hproper hp)
      (MessageFormat.isAllocatable_field ha hp)
  rw [firstViolation_message_iff hentries, WireType.format, Value.toNode, MessageFormat.allocate_of ha]
  change Except.map _ _ = _ ↔ _
  rw [map_eq_error_iff, MessageFormat.Proper.entryNodes_error_iff hproper hok]
  refine exists_congr fun front => exists_congr fun entry => exists_congr fun back =>
    and_congr_right fun hsplit => and_congr ?_ (or_congr ?_ ?_)
  · refine forall₂_congr fun before _ => (hm.consistent.entryConforms_iff_accepts fun f hf => ?_).symm
    exact (hm.field hf).conforms_iff (hm.sized_le hf) before.2
  · rw [Failure.returned.injEq]
    exact and_congr_left' hm.consistent.forall_placed_name_ne_iff
  · have hentry : entry ∈ entries := hsplit ▸ List.mem_append_right _ List.mem_cons_self
    rw [hm.consistent.exists_placed_iff
      (P := fun f => entry.2.toNode f (path.field entry.1) = .error (.returned e))]
    exact exists_congr fun f => and_congr_right fun hf => and_congr_right fun _ =>
      hvalues f hf entry hentry _

/-- A value is refused for what it violates first. -/
theorem Made.toNode_error_iff {type : WireType} (h : type.Made) (hw : type.width ≤ Format.maxWidth)
    (ha : type.format.isAllocatable = true) {value : Value} (hv : value.Ordered) (path : FieldPath)
    (e : ValidationError) :
    value.toNode type.format path = .error (.returned e) ↔ type.FirstViolation value path e := by
  induction type using WireType.induct generalizing value path with
  | scalar type hs =>
    rw [firstViolation_scalar_iff hs, h.conforms_iff hw]
    exact (h.scalar_sound hs).1.toNode_scalar_error_iff (scalar_format hs).1 value path e
  | aliased name target ih =>
    rw [WireType.format, ih h hw ha hv]
    refine ⟨.aliased, ?_⟩
    rintro (htakes | ⟨htakes, hz, hrange⟩ | htarget)
    · exact .mismatch htakes
    · exact .range htakes hz hrange
    · exact htarget
  | array element capacity ih =>
    cases hv with
    | array hitems =>
      obtain ⟨helement, hsize, -⟩ := h.element hw
      have hitem := (Format.isAllocatable_array.mp ha).2
      refine h.toNode_array_error_iff hw hitem (fun item hmem => ?_) path
      exact ih helement hsize hitem (hitems item hmem)
    | bool | int | uint | message =>
      rw [firstViolation_of_not_takes rfl]
      exact error_eq_error_iff.trans (Failure.returned.injEq _ _).to_iff
  | message m ih =>
    have hm : m.Made := h
    cases hv with
    | message hentries hvalues =>
      refine h.toNode_message_error_iff hw ha hentries (fun f hf entry hentry => ?_) path
      have hplaced := hm.consistent.mem_placed hf
      rw [← hm.consistent.format_fields] at hplaced
      exact ih f hf (hm.field hf) (hm.sized_le hf) (MessageFormat.isAllocatable_field ha hplaced)
        (hvalues entry hentry)
    | bool | int | uint | array =>
      rw [firstViolation_of_not_takes rfl]
      exact error_eq_error_iff.trans (Failure.returned.injEq _ _).to_iff

end WireType

/-! ## 4. Records -/

/-- The path of the field or value that an error is about. -/
def ValidationError.field : ValidationError → FieldPath
  | .unknownField field => field
  | .typeMismatch field _ => field
  | .valueOutOfRange field _ _ => field
  | .arrayLength field _ _ => field
  | .unknownEnumValue field _ _ => field

namespace MessageType.Made

variable {m : MessageType} (h : m.Made)

include h

theorem conforms_iff (r : Record) :
    (WireType.message m).Conforms (.message r) ↔ (Format.message m.format).Accepts (.message r) :=
  @WireType.Made.conforms_iff (.message m) h h.width_le (.message r)

/-- A message whose memory can be asked for is made from a record exactly if the record conforms. -/
theorem exists_ofRecord_iff (ha : m.format.isAllocatable = true) (r : Record) :
    (∃ msg, DynamicMessage.ofRecord m.format r = .ok msg) ↔
      (WireType.message m).Conforms (.message r) := by
  simp only [DynamicMessage.ofRecord_ok_iff h.format.1 h.format.2.1, h.conforms_iff, ha,
    exists_and_left, exists_eq, and_true, true_and]

/-- A record is refused for what it violates first. -/
theorem ofRecord_error_iff (ha : m.format.isAllocatable = true) {r : Record}
    (hr : (Value.message r).Ordered) (e : Failure ValidationError) :
    DynamicMessage.ofRecord m.format r = .error e ↔
      ∃ v, e = .returned v ∧ (WireType.message m).FirstViolation (.message r) .root v := by
  have hnode : ∀ e, DynamicMessage.ofRecord m.format r = .error e ↔
      (Value.message r).toNode (.message m.format) .root = .error e := by
    intro e
    rw [DynamicMessage.ofRecord, Value.toNode, MessageFormat.allocate_of ha]
    exact map_eq_error_iff.trans map_eq_error_iff.symm
  have hfirst := @WireType.Made.toNode_error_iff (.message m) h h.width_le ha _ hr .root
  constructor
  · intro herror
    obtain ⟨v, rfl⟩ := Format.exists_returned_of_toNode (f := .message m.format) ha ((hnode e).mp herror)
    exact ⟨v, rfl, (hfirst v).mp ((hnode _).mp herror)⟩
  · rintro ⟨v, rfl, hv⟩
    exact (hnode _).mpr ((hfirst v).mpr hv)

theorem encode_error_iff (ha : m.format.isAllocatable = true) {r : Record}
    (hr : (Value.message r).Ordered) (e : Failure CodecError) : (m.encode r).value = .error e ↔
      ∃ v, e = .returned (.validation v) ∧
        (WireType.message m).FirstViolation (.message r) .root v := by
  have hrefused := h.ofRecord_error_iff ha hr
  rw [encode]
  cases hmessage : DynamicMessage.ofRecord m.format r with
  | error e' =>
    obtain ⟨v, rfl, hv⟩ := (hrefused e').mp hmessage
    constructor
    · intro herror
      exact ⟨v, (Except.error.inj herror).symm, hv⟩
    · rintro ⟨v', rfl, hv'⟩
      obtain h' := hmessage.symm.trans ((hrefused _).mpr ⟨v', rfl, hv'⟩)
      obtain rfl := Failure.returned.inj (Except.error.inj h')
      rfl
  | ok msg =>
    constructor
    · intro herror
      cases herror
    · rintro ⟨v, -, hv⟩
      cases hmessage.symm.trans ((hrefused _).mpr ⟨v, rfl, hv⟩)

/-- A record that is encoded conforms, and every number in it can be decoded again. -/
theorem number_decode_encode {r : Record} {bytes : List UInt8}
    (hbytes : (m.encode r).value = .ok bytes) :
    ∃ decoded, (m.decode bytes).value = .ok decoded ∧ ∀ path type offset value,
      (WireType.message m).Inside path type offset → (Value.message r).follow? path = some value →
        type.Conforms value ∧ (type.isScalar = true →
          ∃ value', (Value.message decoded).follow? path = some value' ∧
            value'.number = value.number) := by
  have hdecoded := h.decode_value_encode hbytes []
  rw [List.append_nil] at hdecoded
  refine ⟨m.normal r, hdecoded, fun path type offset value hin hvalue => ?_⟩
  obtain ⟨hmade, hwidth⟩ := hin.made h h.width_le
  have haccepts := hin.accepts h h.width_le ((h.encode_ok_iff r bytes).mp hbytes).2.1
  refine ⟨(hmade.conforms_iff hwidth value).mpr (haccepts value hvalue), fun hs => ?_⟩
  have hnumber := (hmade.normal_scalar hs haccepts).2
  rw [hvalue] at hnumber
  refine ⟨_, hin.follow?_normal h h.width_le (.message r), ?_⟩
  rw [hvalue]
  exact hnumber

end MessageType.Made

/-- The check of a record against a message whose memory can be asked for is exact.  A message is
made exactly if the record conforms.  Otherwise the record is refused, by `encode` as well, for what
it violates first, under a path whose parts are joined by dots.  Of a record that is encoded no
value is cut: every value in it conforms, and its number is decoded again. -/
theorem DynamicMessage.ofRecord_exact {d : SchemaDef} {schema : Schema} {m : MessageType}
    {r : Record} (hschema : (Schema.compile d).value = .ok schema) (hm : m ∈ schema.messages)
    (hmemory : m.format.isAllocatable = true) (hr : (Value.message r).Ordered) :
    ((∃ msg, ofRecord m.format r = .ok msg) ↔ (WireType.message m).Conforms (.message r)) ∧
    (∀ e, ofRecord m.format r = .error e ↔
      ∃ v, e = .returned v ∧ (WireType.message m).FirstViolation (.message r) .root v) ∧
    (∀ e, (WireType.message m).FirstViolation (.message r) .root e →
      e.field.text = ".".intercalate (e.field.parts.dropWhile (·.isEmpty))) ∧
    (∀ e, (m.encode r).value = .error e ↔
      ∃ v, e = .returned (.validation v) ∧
        (WireType.message m).FirstViolation (.message r) .root v) ∧
    ∀ bytes, (m.encode r).value = .ok bytes →
      ∃ decoded, (m.decode bytes).value = .ok decoded ∧ ∀ path type offset value,
        (WireType.message m).Inside path type offset → (Value.message r).follow? path = some value →
          type.Conforms value ∧ (type.isScalar = true →
            ∃ value', (Value.message decoded).follow? path = some value' ∧
              value'.number = value.number) := by
  have h : m.Made := Schema.compile_made hschema hm
  refine ⟨h.exists_ofRecord_iff hmemory r, h.ofRecord_error_iff hmemory hr,
    fun e _ => e.field.text_eq_joined, h.encode_error_iff hmemory hr,
    fun bytes hbytes => h.number_decode_encode hbytes⟩

/-- What a station sends with a temperature and a wind that are out of range. -/
def faultyRecord : Record :=
  [("readings", .array [.message [("temperature", .int (-64))],
    .message [("temperature", .uint 64), ("valid", .bool true)]]), ("wind", .int 9)]

theorem faultyRecord_ordered : (Value.message faultyRecord).Ordered := by
  have hfirst : (Value.message [("temperature", .int (-64))]).Ordered :=
    .message (by decide) (List.forall_mem_singleton.mpr (.int _))
  have hsecond : (Value.message [("temperature", .uint 64), ("valid", .bool true)]).Ordered := by
    refine .message (by decide) (List.forall_mem_cons.mpr ⟨.uint _, ?_⟩)
    exact List.forall_mem_singleton.mpr (.bool _)
  refine .message (by decide) (List.forall_mem_cons.mpr ⟨.array ?_, ?_⟩)
  · exact List.forall_mem_cons.mpr ⟨hfirst, List.forall_mem_singleton.mpr hsecond⟩
  · exact List.forall_mem_singleton.mpr (.int _)

-- The wind is out of range as well, but comes behind the readings.
theorem DynamicMessage.ofRecord_exact_station : ∃ schema m,
    (Schema.compile stationSchema).value = .ok schema ∧ m ∈ schema.messages ∧
      m.format.isAllocatable = true ∧ (Value.message faultyRecord).Ordered ∧
      (WireType.message m).FirstViolation (.message faultyRecord) .root
        (.valueOutOfRange (((FieldPath.root.field "readings").index 1).field "temperature") 64 7) ∧
      (m.encode faultyRecord).value = .error (.returned (.validation
        (.valueOutOfRange (((FieldPath.root.field "readings").index 1).field "temperature") 64 7))) ∧
      ¬(WireType.message m).Conforms (.message faultyRecord) := by
  obtain ⟨schema, m, hschema, hm, hp⟩ := @Schema.exists_message stationSchema "Station"
    (fun m => m.format.isAllocatable && ((ofRecord m.format faultyRecord).map (fun _ => ()) ==
      .error (.returned (.valueOutOfRange
        (((FieldPath.root.field "readings").index 1).field "temperature") 64 7)))) (by cbv)
  obtain ⟨hmemory, hp⟩ := Bool.and_eq_true_iff.mp hp
  have hvalue := map_eq_error_iff.mp (eq_of_beq hp)
  obtain ⟨hok, herror, -, hencode, -⟩ := ofRecord_exact hschema hm hmemory faultyRecord_ordered
  obtain ⟨v, hv, hfirst⟩ := (herror _).mp hvalue
  obtain rfl := Failure.returned.inj hv
  refine ⟨schema, m, hschema, hm, hmemory, faultyRecord_ordered, hfirst,
    (hencode _).mpr ⟨_, rfl, hfirst⟩, fun hconforms => ?_⟩
  obtain ⟨msg, hmsg⟩ := hok.mpr hconforms
  cases hvalue.symm.trans hmsg

-- Not all the parts of a path are written with their dots.  And a record that conforms is not stored
-- if the memory of its message is more than can be asked for.
theorem DynamicMessage.ofRecord_unnamed_huge :
    (∃ schema m path, (Schema.compile unnamedSchema).value = .ok schema ∧ m ∈ schema.messages ∧
      ofRecord m.format [("", .message [("mode", .uint 9)])] =
        .error (.returned (.valueOutOfRange path 9 2)) ∧
      path.parts = ["", "mode"] ∧ path.text ≠ ".".intercalate path.parts) ∧
    ∃ schema m, (Schema.compile MessageType.hugeSchema).value = .ok schema ∧ m ∈ schema.messages ∧
      (WireType.message m).Conforms (.message []) ∧
      ofRecord m.format [] = .error .capacityOverflow := by
  constructor
  · obtain ⟨schema, m, hschema, hm, hp⟩ := @Schema.exists_message unnamedSchema "Outer"
      (fun m => (ofRecord m.format [("", .message [("mode", .uint 9)])]).map (fun _ => ()) ==
        .error (.returned (.valueOutOfRange ((FieldPath.root.field "").field "mode") 9 2))) (by cbv)
    exact ⟨schema, m, (FieldPath.root.field "").field "mode", hschema, hm,
      map_eq_error_iff.mp (eq_of_beq hp), rfl, by decide⟩
  · obtain ⟨schema, m, hschema, hm, hp⟩ := @Schema.exists_message MessageType.hugeSchema "Huge"
      (fun m => (ofRecord m.format []).map (fun _ => ()) == .error .capacityOverflow) (by cbv)
    have hconforms : (WireType.message m).Conforms (.message []) :=
      fun entry hentry => absurd hentry List.not_mem_nil
    exact ⟨schema, m, hschema, hm, hconforms, map_eq_error_iff.mp (eq_of_beq hp)⟩

end Bitwire
