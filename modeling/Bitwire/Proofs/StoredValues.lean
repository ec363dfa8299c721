import Bitwire.Proofs.PatternNumbers
import Bitwire.Proofs.RecordOrder
import Bitwire.Proofs.StoredLeaves

/-!
# Values and what is stored for them

A value is accepted for a format if it has the format's shape and its numbers are in range; fields
of a record may be missing.  What is stored for an accepted value is computed here without checks,
leaf by leaf: a number is stored as its two's complement, a missing one as zero.  A stored value
stands for a value that is accepted and stored as itself.
-/

namespace Bitwire

namespace Value

/-- The number that a value stands for; a boolean counts as 0 or 1. -/
def number : Value → Int
  | .bool b => if b then 1 else 0
  | .int v => v.toInt
  | .uint v => v.toNat
  | _ => 0

/-- The value of a field; of several entries of one name the last counts. -/
def field? (name : String) : Value → Option Value
  | .message entries => entries.reverse.lookup name
  | _ => none

/-- Element `i` of an array. -/
def element? (i : Nat) : Value → Option Value
  | .array items => items[i]?
  | _ => none

end Value

/-- The number of a value that may be missing. -/
def numberOf (value : Option Value) : Int :=
  (value.map Value.number).getD 0

/-- The pattern of a value that may be missing. -/
def patternOf (bits : Nat) (value : Option Value) : UInt64 :=
  UInt64.ofNat (twosComplement bits (numberOf value))

theorem toNat_patternOf {bits : Nat} (h : bits ≤ 64) (value : Option Value) :
    (patternOf bits value).toNat = twosComplement bits (numberOf value) := by
  rw [patternOf, UInt64.toNat_ofNat']
  exact Nat.mod_eq_of_lt (twosComplement_lt_word h _)

theorem patternOf_none (bits : Nat) : patternOf bits none = 0 := by
  rw [patternOf, numberOf, Option.map_none, Option.getD_none, twosComplement_zero]
  rfl

namespace Format

/-! ## 1. What is stored -/

mutual

/-- What is stored in a format for a value that may be missing. -/
def store : Format → Option Value → Node
  | .array element capacity, value =>
    .array ((List.range capacity).map fun i => element.store (value.bind (Value.element? i))).toArray
  | .message ⟨name, ⟨fields⟩, totalBits⟩, value =>
    .message ⟨name, ⟨fields⟩, totalBits⟩ (storeFields fields value).toArray
  | .bool, value => .leaf (patternOf 1 value)
  | .int bits, value => .leaf (patternOf bits value)
  | .uint bits, value => .leaf (patternOf bits value)
  | .enum e, value => .leaf (patternOf e.bits value)

/-- What is stored in the fields of a message. -/
def storeFields : List FieldFormat → Option Value → List Node
  | [], _ => []
  | ⟨_, name, _, format⟩ :: rest, value =>
    format.store (value.bind (Value.field? name)) :: storeFields rest value

end

theorem store_scalar {f : Format} (h : f.isScalar = true) (value : Option Value) :
    f.store value = .leaf (patternOf f.width value) := by
  cases f <;> first | rfl | exact absurd h Bool.false_ne_true

theorem storeFields_eq_map (fields : List FieldFormat) (value : Option Value) :
    storeFields fields value =
      fields.map fun f => f.format.store (value.bind (Value.field? f.name)) := by
  induction fields with
  | nil => rfl
  | cons f rest ih => rw [storeFields, ih, List.map_cons]

theorem Sound.fits_store {f : Format} (h : f.Sound) (value : Option Value) :
    f.Fits (f.store value) := by
  induction f using Format.induct generalizing value with
  | scalar f hs =>
    rw [store_scalar hs, fits_leaf hs, toNat_patternOf (h.scalar_width hs).2]
    exact twosComplement_lt _ _
  | array element capacity ih =>
    refine ⟨by rw [List.length_map, List.length_range], fun item hitem => ?_⟩
    obtain ⟨i, -, rfl⟩ := List.mem_map.mp hitem
    exact ih h.1 _
  | message m ih =>
    refine ⟨rfl, ?_⟩
    change AllFit m.fields.toList (storeFields m.fields.toList value)
    rw [allFit_iff, storeFields_eq_map, List.forall₂_map_right_iff, List.forall₂_same]
    exact fun f hf => ih f hf (MessageFormat.Sound.field h hf) _

-- Nothing is stored as a blank node.
theorem store_none (f : Format) : f.store none = f.blank := by
  induction f using Format.induct with
  | scalar f hs => rw [store_scalar hs, blank_scalar hs, patternOf_none]
  | array element capacity ih =>
    change Node.array ⟨(List.range capacity).map fun _ => element.store none⟩ =
      .array ⟨List.replicate capacity element.blank⟩
    rw [ih, List.map_const', List.length_range]
  | message m ih =>
    change Node.message m ⟨storeFields m.fields.toList none⟩ = .message m ⟨blanks m.fields.toList⟩
    rw [storeFields_eq_map, blanks_eq_map]
    exact congrArg (fun nodes => Node.message m ⟨nodes⟩) (List.map_congr_left fun f hf => ih f hf)

/-! ## 2. What is accepted -/

mutual

/-- Whether a value is accepted for a format. -/
def Accepts : Format → Value → Prop
  | .bool, .bool _ => True
  | .int bits, value => ∃ z, value.asInt? = some z ∧ -2 ^ (bits - 1) ≤ z ∧ z < 2 ^ (bits - 1)
  | .uint bits, value => ∃ z, value.asInt? = some z ∧ 0 ≤ z ∧ z < 2 ^ bits
  | .enum e, value => ∃ z, value.asInt? = some z ∧ 0 ≤ z ∧ z < 2 ^ e.bits
  | .array element capacity, .array items =>
    items.length = capacity ∧ ∀ item ∈ items, element.Accepts item
  | .message ⟨_, ⟨fields⟩, _⟩, .message entries =>
    ∀ entry ∈ entries, AcceptEntry fields entry.1 entry.2
  | _, _ => False

/-- Whether there is a field of a name that accepts a value. -/
def AcceptEntry : List FieldFormat → String → Value → Prop
  | [], _, _ => False
  | ⟨_, name, _, format⟩ :: rest, name', value =>
    (name = name' ∧ format.Accepts value) ∨ AcceptEntry rest name' value

end

theorem acceptEntry_iff (fields : List FieldFormat) (name : String) (value : Value) :
    AcceptEntry fields name value ↔ ∃ f ∈ fields, f.name = name ∧ f.format.Accepts value := by
  induction fields with
  | nil => simp [AcceptEntry]
  | cons f rest ih => rw [AcceptEntry, ih, List.exists_mem_cons_iff]

end Format

/-! ## 3. Numbers -/

namespace Value

theorem number_of_asInt? {value : Value} {z : Int} (h : value.asInt? = some z) :
    numberOf (some value) = z := by
  cases value with
  | int | uint => exact Option.some.inj h
  | bool | array | message => exact absurd h (by simp [asInt?])

theorem exists_asInt?_iff {value : Value} {z : Int} (h : value.asInt? = some z) {P : Int → Prop} :
    (∃ z', value.asInt? = some z' ∧ P z') ↔ P z := by
  rw [h]
  exact ⟨fun ⟨z', hz, hP⟩ => Option.some.inj hz ▸ hP, fun hP => ⟨z, rfl, hP⟩⟩

-- A pattern that is made if a check succeeds.
theorem checked_ok_iff {ε : Type} {c : Bool} {P : Prop} {p q r : UInt64} {e : ε} (hc : c = true ↔ P)
    (hq : P → q = r) : (if c = true then .ok q else .error e : Except ε UInt64) = .ok p ↔ P ∧ p = r := by
  split
  next hok =>
    have hP := hc.mp hok
    rw [Except.ok.injEq, hq hP]
    exact ⟨fun h => ⟨hP, h.symm⟩, fun h => h.2.symm⟩
  next hno => exact ⟨fun h => (nomatch h), fun h => absurd (hc.mpr h.1) hno⟩

-- A word that fits a width is its own pattern.
theorem patternOf_uint {bits : Nat} (hle : bits ≤ 64) {v : UInt64} (h : v.toNat < 2 ^ bits) :
    patternOf bits (some (.uint v)) = v := by
  apply UInt64.toNat_inj.mp
  rw [toNat_patternOf hle]
  exact twosComplement_of_lt h

theorem unsignedPattern_ok_iff {value : Value} {bits : Nat} (hle : bits ≤ 64) (path : FieldPath)
    (p : UInt64) : value.unsignedPattern bits path = .ok p ↔
      (∃ z, value.asInt? = some z ∧ 0 ≤ z ∧ z < 2 ^ bits) ∧ p = patternOf bits (some value) := by
  have hcast : ((2 ^ bits : Nat) : Int) = 2 ^ bits := Nat.cast_pow 2 bits
  cases value with
  | uint v =>
    rw [unsignedPattern, exists_asInt?_iff (z := v.toNat) rfl]
    apply checked_ok_iff
    · rw [Pattern.fitsUnsigned_iff]
      omega
    · intro hrange
      exact (patternOf_uint hle (by omega)).symm
  | int v =>
    rw [unsignedPattern, exists_asInt?_iff (z := v.toInt) rfl]
    -- a signed word that is not negative is the unsigned word of the same number
    have hword : 0 ≤ v.toInt → (v.toUInt64.toNat : Int) = v.toInt := Pattern.toNat_toUInt64_of_nonneg
    apply checked_ok_iff
    · rw [Bool.and_eq_true_iff, decide_eq_true_iff, Pattern.fitsUnsigned_iff]
      constructor
      · rintro ⟨hpos, hlt⟩
        have hnat := hword hpos
        exact ⟨hpos, by omega⟩
      · rintro ⟨hpos, hlt⟩
        have hnat := hword hpos
        exact ⟨hpos, by omega⟩
    · rintro ⟨hpos, hlt⟩
      have hnat := hword hpos
      have hself := patternOf_uint hle (v := v.toUInt64) (by omega)
      rw [← hself, patternOf, patternOf]
      exact congrArg (fun z => UInt64.ofNat (twosComplement bits z)) hnat
  | bool | array | message =>
    constructor
    · intro h
      cases h
    · rintro ⟨⟨z, hz, -⟩, -⟩
      cases hz

-- The pattern of a signed word is that of its number.
theorem ofSigned_eq_patternOf {value : Value} {bits : Nat} (hle : bits ≤ 64) {v : Int64}
    (hv : numberOf (some value) = v.toInt) :
    Pattern.ofSigned v bits = patternOf bits (some value) := by
  apply UInt64.toNat_inj.mp
  rw [toNat_patternOf hle, Pattern.toNat_ofSigned v hle, hv]

theorem signedPattern_ok_iff {value : Value} {bits : Nat} (hpos : 1 ≤ bits) (hle : bits ≤ 64)
    (path : FieldPath) (p : UInt64) : value.signedPattern bits path = .ok p ↔
      (∃ z, value.asInt? = some z ∧ -2 ^ (bits - 1) ≤ z ∧ z < 2 ^ (bits - 1)) ∧
        p = patternOf bits (some value) := by
  cases value with
  | int v =>
    rw [signedPattern, exists_asInt?_iff (z := v.toInt) rfl]
    exact checked_ok_iff (Pattern.fitsSigned_iff v hpos hle) fun _ => ofSigned_eq_patternOf hle rfl
  | uint v =>
    have hhalf : 2 ^ (bits - 1) ≤ 2 ^ 63 := Nat.pow_le_pow_right (by decide) (by omega)
    have hcast : ((2 ^ (bits - 1) : Nat) : Int) = 2 ^ (bits - 1) := Nat.cast_pow 2 (bits - 1)
    rw [signedPattern, exists_asInt?_iff (z := v.toNat) rfl]
    -- no width has room for an unsigned word from `2 ^ 63` on
    have hsigned : v.toNat < 2 ^ 63 → v.toInt64.toInt = v.toNat := Pattern.toInt_toInt64_of_lt
    apply checked_ok_iff
    · rw [Bool.and_eq_true_iff, decide_eq_true_iff, Pattern.fitsSigned_iff _ hpos hle]
      constructor
      · rintro ⟨hlt, hrange⟩
        rwa [hsigned hlt] at hrange
      · intro hrange
        have hlt : v.toNat < 2 ^ 63 := by omega
        rw [hsigned hlt]
        exact ⟨hlt, hrange⟩
    · intro hrange
      exact ofSigned_eq_patternOf hle (hsigned (by omega)).symm
  | bool | array | message =>
    constructor
    · intro h
      cases h
    · rintro ⟨⟨z, hz, -⟩, -⟩
      cases hz

/-! ## 4. Storing -/

-- The elements of an array are stored one after the other if each is.
theorem itemNodes_ok_iff {element : Format}
    (h : ∀ (value : Value) (path : FieldPath) (node : Node), value.toNode element path = .ok node ↔
      element.Accepts value ∧ node = element.store (some value))
    (items : List Value) (path : FieldPath) (stored out : Array Node) :
    itemNodes items element path stored = .ok out ↔ (∀ item ∈ items, element.Accepts item) ∧
      out = stored ++ (items.map fun item => element.store (some item)).toArray := by
  induction items generalizing stored with
  | nil =>
    rw [itemNodes, Except.ok.injEq, List.map_nil, Array.append_empty]
    exact ⟨fun h => ⟨fun _ hmem => absurd hmem List.not_mem_nil, h.symm⟩, fun h => h.2.symm⟩
  | cons item rest ih =>
    rw [itemNodes]
    split
    next e he =>
      refine ⟨fun h => (nomatch h), fun ⟨hall, _⟩ => ?_⟩
      have hok := (h item (path.index stored.size) _).mpr ⟨hall item List.mem_cons_self, rfl⟩
      exact nomatch he.symm.trans hok
    next node hnode =>
      obtain ⟨haccepts, rfl⟩ := (h _ _ _).mp hnode
      have hpush : stored.push (element.store (some item)) ++
          (rest.map fun item => element.store (some item)).toArray =
            stored ++ (element.store (some item) ::
              rest.map fun item => element.store (some item)).toArray := by
        rw [Array.push_eq_append, Array.append_assoc]
        exact congrArg (stored ++ ·) (List.append_toArray [element.store (some item)] _)
      rw [ih, List.forall_mem_cons, List.map_cons, hpush]
      exact ⟨fun ⟨hall, hout⟩ => ⟨⟨haccepts, hall⟩, hout⟩, fun ⟨hall, hout⟩ => ⟨hall.2, hout⟩⟩

end Value

namespace MessageFormat

theorem named?_eq_none {m : MessageFormat} {name : String} :
    m.named? name = none ↔ ∀ f ∈ m.fields.toList, f.name ≠ name := by
  rw [named?, List.findSome?_eq_none_iff]
  constructor
  · intro h f hf hname
    obtain ⟨i, hi, rfl⟩ := List.getElem_of_mem hf
    have hnone : (if (m.fields.toList[i].name == name) = true then some (i, m.fields.toList[i])
        else none) = none :=
      h (_, i) (List.mk_mem_zipIdx_iff_getElem?.mpr (List.getElem?_eq_getElem hi))
    rw [if_pos (beq_iff_eq.mpr hname)] at hnone
    exact nomatch hnone
  · rintro h ⟨f, i⟩ hmem
    have hf := List.mem_of_getElem? (List.mk_mem_zipIdx_iff_getElem?.mp hmem)
    exact if_neg fun hname => h f hf (beq_iff_eq.mp hname)

theorem of_named? {m : MessageFormat} {name : String} {i : Nat} {field : FieldFormat}
    (h : m.named? name = some (i, field)) :
    m.fields.toList[i]? = some field ∧ field.name = name := by
  rw [named?] at h
  obtain ⟨⟨f, j⟩, hmem, hf⟩ := List.exists_of_findSome?_eq_some h
  change (if (f.name == name) = true then some (j, f) else none) = some (i, field) at hf
  split at hf
  next hname =>
    obtain ⟨rfl, rfl⟩ := Prod.mk.inj (Option.some.inj hf)
    exact ⟨List.mk_mem_zipIdx_iff_getElem?.mp hmem, beq_iff_eq.mp hname⟩
  next => exact nomatch hf

-- A field is known by its name.
theorem Proper.index_eq {m : MessageFormat} (h : m.Proper) {i j : Nat} {f g : FieldFormat}
    (hi : m.fields.toList[i]? = some f) (hj : m.fields.toList[j]? = some g)
    (hname : f.name = g.name) : i = j := by
  have hi' : (m.fields.toList.map PlacedField.name)[i]? = some f.name := by
    rw [List.getElem?_map, hi, Option.map_some]
  have hj' : (m.fields.toList.map PlacedField.name)[j]? = some f.name := by
    rw [List.getElem?_map, hj, Option.map_some, hname]
  have hlt := (List.getElem?_eq_some_iff.mp hi').1
  exact (List.getElem?_inj hlt h.names_nodup).mp (hi'.trans hj'.symm)

-- There is one field of a name.
theorem Proper.eq_of_name {m : MessageFormat} (h : m.Proper) {f g : FieldFormat}
    (hf : f ∈ m.fields.toList) (hg : g ∈ m.fields.toList) (hname : f.name = g.name) : f = g := by
  obtain ⟨i, hi, rfl⟩ := List.getElem_of_mem hf
  obtain ⟨j, hj, rfl⟩ := List.getElem_of_mem hg
  have hij := h.index_eq (List.getElem?_eq_getElem hi) (List.getElem?_eq_getElem hj) hname
  simp only [hij]

/-- What the entries of a record put into the stored fields of a message. -/
def overlay (m : MessageFormat) (entries : List (String × Value)) (nodes : List Node) : List Node :=
  List.zipWith (fun f node => match entries.reverse.lookup f.name with
    | some value => f.format.store (some value)
    | none => node) m.fields.toList nodes

theorem overlay_nil {m : MessageFormat} {nodes : List Node}
    (hlen : nodes.length = m.fields.toList.length) : m.overlay [] nodes = nodes := by
  apply List.ext_getElem (by rw [overlay, List.length_zipWith]; omega)
  intro i hi hi'
  simp only [overlay, List.getElem_zipWith]
  rfl

-- The last entry of a record counts for its field, and for no other.
theorem Proper.overlay_set {m : MessageFormat} (h : m.Proper) {name : String} {i : Nat}
    {field : FieldFormat} (hfield : m.fields.toList[i]? = some field) (hname : field.name = name)
    (value : Value) (rest : List (String × Value)) (nodes : List Node) :
    m.overlay rest (nodes.set i (field.format.store (some value))) =
      m.overlay ((name, value) :: rest) nodes := by
  apply List.ext_getElem (by simp only [overlay, List.length_zipWith, List.length_set])
  intro j hj hj'
  have hjf : j < m.fields.toList.length := by
    rw [overlay, List.length_zipWith] at hj
    omega
  simp only [overlay, List.getElem_zipWith, List.reverse_cons, List.lookup_append,
    List.getElem_set]
  cases rest.reverse.lookup m.fields.toList[j].name with
  | some v => rfl
  | none =>
    by_cases hij : i = j
    · subst hij
      obtain rfl : m.fields.toList[i] = field :=
        Option.some.inj ((List.getElem?_eq_getElem hjf).symm.trans hfield)
      rw [if_pos rfl, Option.none_or, hname, List.lookup_cons_self]
    · have hne : m.fields.toList[j].name ≠ name := fun heq =>
        hij (h.index_eq hfield (List.getElem?_eq_getElem hjf) (hname.trans heq.symm))
      rw [if_neg hij, Option.none_or, List.lookup_cons, beq_eq_false_iff_ne.mpr hne, List.lookup_nil]

theorem overlay_blanks (m : MessageFormat) (entries : List (String × Value)) :
    m.overlay entries (Format.blanks m.fields.toList) =
      Format.storeFields m.fields.toList (some (.message entries)) := by
  rw [overlay, Format.blanks_eq_map, Format.storeFields_eq_map, List.zipWith_map_right,
    List.zipWith_self]
  refine List.map_congr_left fun f _ => ?_
  change _ = f.format.store (entries.reverse.lookup f.name)
  cases entries.reverse.lookup f.name with
  | some value => rfl
  | none => exact f.format.store_none.symm

-- The entries of a record are stored one after the other if each is accepted.
theorem entryNodes_ok_iff {m : MessageFormat} (hp : m.Proper)
    (h : ∀ f ∈ m.fields.toList, ∀ (value : Value) (path : FieldPath) (node : Node),
      value.toNode f.format path = .ok node ↔
        f.format.Accepts value ∧ node = f.format.store (some value))
    (entries : List (String × Value)) (path : FieldPath) {nodes : Array Node}
    (hlen : nodes.size = m.fields.toList.length) (out : Array Node) :
    Value.entryNodes entries m path nodes = .ok out ↔
      (∀ entry ∈ entries, Format.AcceptEntry m.fields.toList entry.1 entry.2) ∧
        out = ⟨m.overlay entries nodes.toList⟩ := by
  induction entries generalizing nodes with
  | nil =>
    rw [Value.entryNodes, Except.ok.injEq, overlay_nil hlen]
    exact ⟨fun h => ⟨fun _ hmem => absurd hmem List.not_mem_nil, h.symm⟩, fun h => h.2.symm⟩
  | cons entry rest ih =>
    obtain ⟨name, value⟩ := entry
    rw [Value.entryNodes, List.forall_mem_cons, Format.acceptEntry_iff]
    split
    next hnone =>
      refine ⟨fun h => (nomatch h), fun ⟨⟨⟨f, hf, hname, _⟩, _⟩, _⟩ => ?_⟩
      exact absurd hname (named?_eq_none.mp hnone f hf)
    next i field hsome =>
      obtain ⟨hfield, hname⟩ := of_named? hsome
      have hmem := List.mem_of_getElem? hfield
      split
      next e he =>
        refine ⟨fun h => (nomatch h), fun ⟨⟨⟨f, hf, hf', haccepts⟩, _⟩, _⟩ => ?_⟩
        -- the field of that name is the one whose format refused the value
        obtain rfl := hp.eq_of_name hf hmem (hf'.trans hname.symm)
        exact nomatch he.symm.trans ((h _ hmem value (path.field name) _).mpr ⟨haccepts, rfl⟩)
      next node hnode =>
        obtain ⟨haccepts, rfl⟩ := (h field hmem _ _ _).mp hnode
        rw [ih (by rwa [Array.size_setIfInBounds]), Array.toList_setIfInBounds,
          hp.overlay_set hfield hname]
        exact ⟨fun ⟨hall, hout⟩ => ⟨⟨⟨field, hmem, hname, haccepts⟩, hall⟩, hout⟩,
          fun ⟨hall, hout⟩ => ⟨hall.2, hout⟩⟩

end MessageFormat

theorem map_eq_ok_iff {ε α β : Type} {x : Except ε α} {g : α → β} {b : β} :
    x.map g = .ok b ↔ ∃ a, x = .ok a ∧ g a = b := by
  cases x with
  | ok a => simp [Except.map]
  | error e => simp [Except.map]

namespace Value

theorem toNode_int (value : Value) (bits : Nat) (path : FieldPath) :
    value.toNode (.int bits) path = (Failure.ofExcept (value.signedPattern bits path)).map .leaf := by
  cases value <;> rfl

theorem toNode_uint (value : Value) (bits : Nat) (path : FieldPath) :
    value.toNode (.uint bits) path = (Failure.ofExcept (value.unsignedPattern bits path)).map .leaf := by
  cases value <;> rfl

theorem toNode_enum (value : Value) (e : EnumFormat) (path : FieldPath) :
    value.toNode (.enum e) path = (Failure.ofExcept (value.unsignedPattern e.bits path)).map .leaf := by
  cases value <;> rfl

end Value

namespace Format

-- A leaf is stored if its pattern can be made.
theorem map_leaf_ok_iff {ε : Type} {x : Except ε UInt64} {q : UInt64} {P : Prop}
    (h : ∀ p, x = .ok p ↔ P ∧ p = q) (node : Node) :
    (Failure.ofExcept x).map Node.leaf = .ok node ↔ P ∧ node = .leaf q := by
  simp only [map_eq_ok_iff, Failure.ofExcept_eq_ok_iff, h]
  constructor
  · rintro ⟨p, ⟨hP, rfl⟩, rfl⟩
    exact ⟨hP, rfl⟩
  · rintro ⟨hP, rfl⟩
    exact ⟨q, ⟨hP, rfl⟩, rfl⟩

theorem Sound.toNode_scalar_ok_iff {f : Format} (h : f.Sound) (hs : f.isScalar = true)
    (value : Value) (path : FieldPath) (node : Node) :
    value.toNode f path = .ok node ↔ f.Accepts value ∧ node = f.store (some value) := by
  obtain ⟨hpos, hle⟩ := h.scalar_width hs
  cases f with
  | bool =>
    cases value with
    | bool b =>
      rw [Value.toNode, Except.ok.injEq]
      cases b <;> exact ⟨fun h => ⟨trivial, h.symm⟩, fun h => h.2.symm⟩
    | int | uint | array | message => exact ⟨fun h => (nomatch h), fun h => absurd h.1 not_false⟩
  | int bits =>
    rw [Value.toNode_int]
    exact map_leaf_ok_iff (value.signedPattern_ok_iff hpos hle path) node
  | uint bits =>
    rw [Value.toNode_uint]
    exact map_leaf_ok_iff (value.unsignedPattern_ok_iff hle path) node
  | enum e =>
    rw [Value.toNode_enum]
    exact map_leaf_ok_iff (value.unsignedPattern_ok_iff hle path) node
  | array | message => exact absurd hs Bool.false_ne_true

-- An array is stored element after element.
theorem store_array (element : Format) (items : List Value) :
    (Format.array element items.length).store (some (.array items)) =
      .array ⟨items.map fun item => element.store (some item)⟩ := by
  change Node.array ⟨(List.range items.length).map fun i => element.store items[i]?⟩ = _
  congr 2
  apply List.ext_getElem (by rw [List.length_map, List.length_map, List.length_range])
  intro i hi hi'
  rw [List.length_map] at hi'
  rw [List.getElem_map, List.getElem_map, List.getElem_range, List.getElem?_eq_getElem hi']

/-- Where memory can be asked for, a value is stored exactly if it is accepted, and then as `store`
says. -/
theorem Sound.toNode_ok_iff {f : Format} (h : f.Sound) (hp : f.Proper)
    (ha : f.isAllocatable = true) (value : Value) (path : FieldPath) (node : Node) :
    value.toNode f path = .ok node ↔ f.Accepts value ∧ node = f.store (some value) := by
  induction f using Format.induct generalizing value path node with
  | scalar f hs => exact h.toNode_scalar_ok_iff hs value path node
  | array element capacity ih =>
    cases value with
    | array items =>
      rw [Value.toNode]
      split
      next hlen => exact ⟨fun h => (nomatch h), fun h => absurd h.1.1 hlen⟩
      next hlen =>
        obtain rfl := Classical.not_not.mp hlen
        rw [map_eq_ok_iff, store_array]
        have hitems := ih h.1 hp (isAllocatable_array.mp ha).2
        simp only [Value.itemNodes_ok_iff hitems items path #[], Array.empty_append]
        constructor
        · rintro ⟨out, ⟨hall, rfl⟩, rfl⟩
          exact ⟨⟨rfl, hall⟩, rfl⟩
        · rintro ⟨⟨-, hall⟩, rfl⟩
          exact ⟨_, ⟨hall, rfl⟩, rfl⟩
    | bool | int | uint | message => exact ⟨fun h => (nomatch h), fun h => absurd h.1 not_false⟩
  | message m ih =>
    cases value with
    | message entries =>
      have hlen : (⟨blanks m.fields.toList⟩ : Array Node).size = m.fields.toList.length := by
        rw [List.size_toArray, blanks_eq_map, List.length_map]
      have hentries := MessageFormat.entryNodes_ok_iff (m := m) hp
        (fun f hf => ih f hf (MessageFormat.Sound.field h hf) (MessageFormat.Proper.field hp hf)
          (MessageFormat.isAllocatable_field ha hf))
        entries path hlen
      -- the entries of the record are laid over the blank fields of the message
      rw [Value.toNode, MessageFormat.allocate_of ha, Except.bind, map_eq_ok_iff]
      simp only [hentries]
      change _ ↔ _ ∧ node = .message m ⟨storeFields m.fields.toList (some (.message entries))⟩
      rw [← m.overlay_blanks]
      constructor
      · rintro ⟨out, ⟨hall, rfl⟩, rfl⟩
        exact ⟨hall, rfl⟩
      · rintro ⟨hall, rfl⟩
        exact ⟨_, ⟨hall, rfl⟩, rfl⟩
    | bool | int | uint | array => exact ⟨fun h => (nomatch h), fun h => absurd h.1 not_false⟩

end Format

end Bitwire
