import Bitwire.Proofs.ReadBack
import Bitwire.Proofs.TypePlaces

/-!
# Normal values

The normal value of a type for a value that may be missing has the type's own form: a boolean, a
signed or an unsigned integer, an array of all elements, a record of all fields.  It keeps every
number and has zero where there is none.  What is stored for a value stands for its normal value.
-/

namespace Bitwire

namespace WireType

/-! ## 1. Definitions -/

mutual

/-- The normal value of a type for a value that may be missing. -/
def normal : WireType → Option Value → Value
  | .bool, value => .bool (numberOf value != 0)
  | .int _, value => .int (Int64.ofInt (numberOf value))
  | .uint _, value => .uint (UInt64.ofNat (numberOf value).toNat)
  | .aliased _ target, value => target.normal value
  | .enum _, value => .uint (UInt64.ofNat (numberOf value).toNat)
  | .array element capacity, value =>
    .array ((List.range capacity).map fun i => element.normal (value.bind (Value.element? i)))
  | .message ⟨_, fields, _, _⟩, value => .message (Record.ofList (normalFields fields value))

/-- The normal values of the fields of a message. -/
def normalFields : List Field → Option Value → List (String × Value)
  | [], _ => []
  | ⟨_, name, type⟩ :: rest, value =>
    (name, type.normal (value.bind (Value.field? name))) :: normalFields rest value

end

theorem normalFields_eq_map (fields : List Field) (value : Option Value) :
    normalFields fields value =
      fields.map fun f => (f.name, f.type.normal (value.bind (Value.field? f.name))) := by
  induction fields with
  | nil => rfl
  | cons f rest ih => rw [normalFields, ih, List.map_cons]

theorem map_fst_normalFields (fields : List Field) (value : Option Value) :
    (normalFields fields value).map Prod.fst = fields.map FieldOf.name := by
  rw [normalFields_eq_map, List.map_map]
  rfl

/-- Whether a value has the form in which a type's values are read.  Of elements and fields only
the number and the names are looked at. -/
def Represents : WireType → Value → Prop
  | .bool, .bool _ => True
  | .int _, .int _ => True
  | .uint _, .uint _ => True
  | .aliased _ target, value => target.Represents value
  | .enum _, .uint _ => True
  | .array _ capacity, .array items => items.length = capacity
  | .message m, .message entries =>
    Record.Ordered entries ∧ (entries.map Prod.fst).Perm (m.fields.map FieldOf.name)
  | _, _ => False

end WireType

/-- The normal record of a message type for a record that may leave out fields. -/
def MessageType.normal (m : MessageType) (r : Record) : Record :=
  Record.ofList (WireType.normalFields m.fields (some (.message r)))

/-! ## 2. Numbers -/

-- A number that may be missing is in the range of a signed width if it was accepted.
theorem numberOf_signed {bits : Nat} {value : Option Value}
    (h : ∀ v ∈ value, (Format.int bits).Accepts v) :
    -2 ^ (bits - 1) ≤ numberOf value ∧ numberOf value < 2 ^ (bits - 1) := by
  have hcast : ((2 ^ (bits - 1) : Nat) : Int) = 2 ^ (bits - 1) := Nat.cast_pow 2 (bits - 1)
  have hpos := Nat.two_pow_pos (bits - 1)
  cases value with
  | none =>
    change -2 ^ (bits - 1) ≤ (0 : Int) ∧ (0 : Int) < 2 ^ (bits - 1)
    omega
  | some v =>
    have haccepts := h v rfl
    rw [Format.Accepts] at haccepts
    obtain ⟨z, hz, hrange⟩ := haccepts
    rwa [Value.number_of_asInt? hz]

-- A number that may be missing is in the range of an unsigned width if it was accepted.
theorem numberOf_unsigned {bits : Nat} {value : Option Value}
    (h : ∀ v ∈ value, ∃ z, v.asInt? = some z ∧ 0 ≤ z ∧ z < 2 ^ bits) :
    0 ≤ numberOf value ∧ numberOf value < 2 ^ bits := by
  cases value with
  | none =>
    have hpos : (0 : Int) < 2 ^ bits := Int.pow_pos (by decide)
    exact ⟨Int.le_refl _, hpos⟩
  | some v =>
    obtain ⟨z, hz, hrange⟩ := h v rfl
    rwa [Value.number_of_asInt? hz]

-- The pattern of an unsigned number is the number.
theorem patternOf_unsigned {bits : Nat} (hle : bits ≤ 64) {value : Option Value}
    (h : 0 ≤ numberOf value ∧ numberOf value < 2 ^ bits) :
    patternOf bits value = UInt64.ofNat (numberOf value).toNat ∧
      ((UInt64.ofNat (numberOf value).toNat).toNat : Int) = numberOf value := by
  have hmod := Int.emod_eq_of_lt h.1 h.2
  have hpattern : patternOf bits value = UInt64.ofNat (numberOf value).toNat := by
    rw [patternOf, twosComplement, hmod]
  refine ⟨hpattern, ?_⟩
  rw [← hpattern, toNat_patternOf hle, coe_twosComplement, hmod]

-- The pattern of a signed number is extended to the number.
theorem signExtend_patternOf {bits : Nat} {value : Option Value} (hpos : 1 ≤ bits)
    (hle : bits ≤ 64) (h : -2 ^ (bits - 1) ≤ numberOf value ∧ numberOf value < 2 ^ (bits - 1)) :
    (Pattern.signExtend (patternOf bits value) bits).toInt = numberOf value := by
  rw [Pattern.toInt_signExtend _ hpos hle, toNat_patternOf hle]
  exact (Pattern.bmod_twosComplement hpos _).mpr h

theorem number_bool {value : Option Value} (h : ∀ v ∈ value, Format.bool.Accepts v) :
    numberOf value = if numberOf value != 0 then 1 else 0 := by
  cases value with
  | none => rfl
  | some v =>
    have haccepts := h v rfl
    cases v with
    | bool b => cases b <;> rfl
    | int | uint | array | message => exact absurd haccepts not_false

namespace WireType

-- What is stored for a number that was accepted stands for its normal value, which has the same
-- number.
theorem Made.normal_scalar {type : WireType} (h : type.Made) (hs : type.isScalar = true)
    {value : Option Value} (haccepts : ∀ v ∈ value, type.format.Accepts v) :
    (Node.leaf (patternOf type.format.width value)).toValue type.format = type.normal value ∧
      (type.normal value).number = numberOf value := by
  obtain ⟨hpos, hle⟩ := (h.scalar_sound hs).1.scalar_width (scalar_format hs).1
  cases type with
  | bool =>
    have hnumber := number_bool haccepts
    refine ⟨congrArg Value.bool ?_, hnumber.symm⟩
    change (patternOf 1 value != 0) = (numberOf value != 0)
    by_cases hzero : numberOf value = 0
    · rw [patternOf, hzero]
      rfl
    · rw [if_pos (bne_iff_ne.mpr hzero)] at hnumber
      rw [patternOf, hnumber]
      rfl
  | int bits =>
    have hrange := numberOf_signed haccepts
    have hint : (Pattern.signExtend (patternOf bits value) bits).toInt = numberOf value :=
      signExtend_patternOf hpos hle hrange
    have hself : Pattern.signExtend (patternOf bits value) bits = Int64.ofInt (numberOf value) := by
      rw [← hint, Int64.ofInt_toInt]
    refine ⟨congrArg Value.int hself, ?_⟩
    change (Int64.ofInt (numberOf value)).toInt = numberOf value
    rw [← hself]
    exact hint
  | uint bits =>
    obtain ⟨hpattern, hnumber⟩ := patternOf_unsigned hle (numberOf_unsigned fun v hv => by
      have := haccepts v hv
      rwa [WireType.format, Format.Accepts] at this)
    exact ⟨congrArg Value.uint hpattern, hnumber⟩
  | enum e =>
    obtain ⟨hpattern, hnumber⟩ := patternOf_unsigned hle (numberOf_unsigned fun v hv => by
      have := haccepts v hv
      rwa [WireType.format, Format.Accepts] at this)
    exact ⟨congrArg Value.uint hpattern, hnumber⟩
  | aliased | array | message => exact absurd hs Bool.false_ne_true

/-! ## 3. What is read back -/

-- The elements of an array that was accepted were accepted.
theorem accepts_element {element : Format} {capacity : Nat} {value : Option Value}
    (h : ∀ v ∈ value, (Format.array element capacity).Accepts v) (i : Nat) :
    ∀ v ∈ value.bind (Value.element? i), element.Accepts v := by
  intro v hv
  obtain ⟨whole, rfl, hitem⟩ := Option.bind_eq_some_iff.mp hv
  have hwhole := h whole rfl
  cases whole with
  | array items =>
    rw [Format.Accepts] at hwhole
    exact hwhole.2 v (List.mem_of_getElem? hitem)
  | bool | int | uint | message => cases hitem

-- The fields of a record that was accepted were accepted.
theorem accepts_field {m : MessageFormat} (hp : m.Proper) {value : Option Value}
    (h : ∀ v ∈ value, (Format.message m).Accepts v) {p : FieldFormat} (hmem : p ∈ m.fields.toList) :
    ∀ v ∈ value.bind (Value.field? p.name), p.format.Accepts v := by
  intro v hv
  obtain ⟨whole, rfl, hlookup⟩ := Option.bind_eq_some_iff.mp hv
  have hwhole := h whole rfl
  cases whole with
  | message entries =>
    change ∀ entry ∈ entries, Format.AcceptEntry m.fields.toList entry.1 entry.2 at hwhole
    have hentry : (p.name, v) ∈ entries := by
      obtain ⟨front, back, hsplit, -⟩ := List.lookup_eq_some_iff.mp hlookup
      apply List.mem_reverse.mp
      rw [hsplit]
      exact List.mem_append_right _ List.mem_cons_self
    obtain ⟨q, hq, hname, haccepts⟩ := (Format.acceptEntry_iff _ _ _).mp (hwhole _ hentry)
    obtain rfl := hp.eq_of_name hq hmem hname
    exact haccepts
  | bool | int | uint | array => cases hlookup

-- The fields of a message stand for its normal record if each stands for its normal value.
theorem ofList_fieldValues {m : MessageType} (h : m.Consistent) {value : Option Value}
    (hfields : ∀ f ∈ m.fields, (f.type.format.store (value.bind (Value.field? f.name))).toValue
      f.type.format = f.type.normal (value.bind (Value.field? f.name))) :
    Record.ofList (Node.fieldValues (Format.storeFields m.format.fields.toList value)
      m.format.fields.toList) = Record.ofList (normalFields m.fields value) := by
  have hvalues : ∀ f ∈ m.sortedFields, (f.name, (f.type.format.store
      (value.bind (Value.field? f.name))).toValue f.type.format) =
        (f.name, f.type.normal (value.bind (Value.field? f.name))) :=
    fun f hf => congrArg (Prod.mk f.name) (hfields f (MessageType.mem_sortedFields.mp hf))
  have hnames : ((m.sortedFields.map fun f =>
      (f.name, f.type.normal (value.bind (Value.field? f.name)))).map Prod.fst).Nodup := by
    rw [List.map_map]
    exact ((List.mergeSort_perm m.fields _).map FieldOf.name).nodup_iff.mpr h.names_nodup
  rw [Node.fieldValues_eq_zipWith, Format.storeFields_eq_map, List.zipWith_map_right,
    List.zipWith_self, h.format_fields,
    MessageType.map_placedFields (fun f => (f.name, (f.type.format.store
      (value.bind (Value.field? f.name))).toValue f.type.format)) fun _ _ => rfl,
    List.map_congr_left hvalues, normalFields_eq_map]
  -- the format has the fields by number, the record by name
  exact Record.ofList_eq_of_perm hnames ((List.mergeSort_perm m.fields _).map _)

/-- What is stored for a value that was accepted stands for its normal value. -/
theorem Made.toValue_store {type : WireType} (h : type.Made) (hw : type.width ≤ Format.maxWidth)
    (value : Option Value) (haccepts : ∀ v ∈ value, type.format.Accepts v) :
    (type.format.store value).toValue type.format = type.normal value := by
  induction type using WireType.induct generalizing value with
  | scalar type hs =>
    rw [Format.store_scalar (scalar_format hs).1]
    exact (h.normal_scalar hs haccepts).1
  | aliased name target ih => exact ih h hw value haccepts
  | array element capacity ih =>
    obtain ⟨helement, hsize, -⟩ := h.element hw
    change Value.array (Node.itemValues ((List.range capacity).map fun i =>
      element.format.store (value.bind (Value.element? i))) element.format) = .array _
    rw [Node.itemValues_eq_map, List.map_map]
    refine congrArg Value.array (List.map_congr_left fun i _ => ?_)
    exact ih helement hsize _ (accepts_element haccepts i)
  | message m ih =>
    have hm : m.Made := h
    have hproper : m.format.Proper := (h.format hw).2.1
    refine congrArg Value.message (ofList_fieldValues hm.consistent fun f hf => ?_)
    have hplaced := hm.consistent.mem_placed hf
    rw [← hm.consistent.format_fields] at hplaced
    exact ih f hf (hm.field hf) (hm.sized_le hf) _ (accepts_field hproper haccepts hplaced)

/-! ## 4. Along a path -/

-- A normal value has the form of its type.
theorem Made.represents_normal {type : WireType} (h : type.Made) (value : Option Value) :
    type.Represents (type.normal value) := by
  induction type using WireType.induct with
  | scalar type hs =>
    cases type with
    | bool | int | uint | enum => exact trivial
    | aliased | array | message => exact absurd hs Bool.false_ne_true
  | aliased name target ih => exact ih h
  | array element capacity _ =>
    change ((List.range capacity).map _).length = capacity
    rw [List.length_map, List.length_range]
  | message m _ =>
    have hm : m.Made := h
    have hnames := map_fst_normalFields m.fields value
    have hnodup : ((normalFields m.fields value).map Prod.fst).Nodup := by
      rw [hnames]
      exact hm.consistent.names_nodup
    refine ⟨Record.ofList_ordered _, ?_⟩
    rw [← hnames]
    exact (Record.ofList_perm hnodup).map Prod.fst

namespace Inside

variable {root type : WireType} {path : FieldPath} {offset : Nat}
  (h : Inside root path type offset) (hroot : root.Made) (hwidth : root.width ≤ Format.maxWidth)

include h hroot hwidth

-- What an accepted value has at the end of a path was accepted.
theorem accepts {value : Value} (haccepts : root.format.Accepts value) :
    ∀ v ∈ value.follow? path, type.format.Accepts v := by
  induction h with
  | root =>
    intro v hv
    rwa [← Option.some.inj hv]
  | target _ ih => exact ih
  | element i _ _ ih => exact accepts_element ih i
  | field f hin hf ih =>
    obtain ⟨hmade, hle⟩ := hin.made hroot hwidth
    have hm : MessageType.Made _ := hmade
    have hplaced := hm.consistent.mem_placed hf
    rw [← hm.consistent.format_fields] at hplaced
    exact accepts_field (hmade.format hle).2.1 ih hplaced

-- At the end of a path the normal value has the normal value of what is there.
theorem follow?_normal (value : Value) :
    (root.normal (some value)).follow? path = some (type.normal (value.follow? path)) := by
  induction h with
  | root => rfl
  | target _ ih => exact ih
  | @element path element capacity _ i _ hi ih =>
    rw [Value.follow?, ih, Option.bind_some]
    change ((List.range capacity).map fun i =>
      element.normal ((value.follow? path).bind (Value.element? i)))[i]? = _
    rw [List.getElem?_map, List.getElem?_range hi, Option.map_some]
    rfl
  | @field path m _ f hin hf ih =>
    have hm : m.Made := (hin.made hroot hwidth).1
    have hnodup : ((normalFields m.fields (value.follow? path)).map Prod.fst).Nodup := by
      rw [map_fst_normalFields]
      exact hm.consistent.names_nodup
    rw [Value.follow?, ih, Option.bind_some]
    apply Value.field?_ofList hnodup
    rw [normalFields_eq_map]
    exact List.mem_map.mpr ⟨f, hf, rfl⟩

end Inside

end WireType

end Bitwire
