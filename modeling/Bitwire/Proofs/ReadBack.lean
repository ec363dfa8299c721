import Bitwire.Proofs.DynamicWalk
import Bitwire.Proofs.StoredValues

/-!
# Stored values read back

A fitting node stands for a value that is accepted by its format and stored as that node again, so
a message is known by the record of its fields.
-/

namespace Bitwire

-- In a record of different names every entry counts for its field.
theorem Value.field?_ofList {entries : List (String × Value)} (h : (entries.map Prod.fst).Nodup)
    {name : String} {value : Value} (hmem : (name, value) ∈ entries) :
    (Value.message (Record.ofList entries)).field? name = some value := by
  have hperm := (Record.ofList entries).reverse_perm.trans (Record.ofList_perm h)
  exact lookup_of_mem ((hperm.map Prod.fst).nodup_iff.mpr h) (hperm.mem_iff.mpr hmem)

namespace Node

theorem itemValues_eq_map (items : List Node) (element : Format) :
    itemValues items element = items.map fun item => item.toValue element := by
  induction items with
  | nil => rfl
  | cons item rest ih => rw [itemValues, ih, List.map_cons]

theorem fieldValues_eq_zipWith (nodes : List Node) (fields : List FieldFormat) :
    fieldValues nodes fields =
      List.zipWith (fun f node => (f.name, node.toValue f.format)) fields nodes := by
  induction nodes generalizing fields with
  | nil => rw [fieldValues, List.zipWith_nil_right]; simp
  | cons node nodes ih =>
    cases fields with
    | nil => rfl
    | cons f fields => rw [fieldValues, ih, List.zipWith_cons_cons]

theorem map_fst_fieldValues {nodes : List Node} {fields : List FieldFormat}
    (hlen : nodes.length = fields.length) :
    (fieldValues nodes fields).map Prod.fst = fields.map PlacedField.name := by
  rw [fieldValues_eq_zipWith, List.map_zipWith]
  apply List.ext_getElem (by rw [List.length_zipWith, List.length_map, hlen, Nat.min_self])
  intro i _ _
  rw [List.getElem_zipWith, List.getElem_map]

end Node

namespace Format

-- The number that a pattern of a signed width stands for is in range and has the pattern.
theorem patternOf_signExtend {bits : Nat} (hpos : 1 ≤ bits) (hle : bits ≤ 64) {p : UInt64}
    (hp : p.toNat < 2 ^ bits) : (Format.int bits).Accepts (.int (Pattern.signExtend p bits)) ∧
      patternOf bits (some (.int (Pattern.signExtend p bits))) = p := by
  have hint := Pattern.toInt_signExtend p hpos hle
  have hself : twosComplement bits (Int.bmod p.toNat (2 ^ bits)) = p.toNat := by
    apply Int.ofNat.inj
    change (twosComplement bits (Int.bmod p.toNat (2 ^ bits)) : Int) = p.toNat
    have hcast : ((2 ^ bits : Nat) : Int) = 2 ^ bits := Nat.cast_pow 2 bits
    rw [coe_twosComplement, ← hcast, Int.bmod_emod]
    exact Int.emod_eq_of_lt (by omega) (Int.ofNat_lt.mpr hp)
  constructor
  · rw [Accepts]
    refine ⟨_, rfl, ?_⟩
    rw [hint]
    apply (Pattern.bmod_twosComplement hpos _).mp
    rw [hself]
  · apply UInt64.toNat_inj.mp
    rw [toNat_patternOf hle]
    change twosComplement bits (Pattern.signExtend p bits).toInt = p.toNat
    rw [hint, hself]

-- A pattern stands for a number that has it.
theorem Sound.toValue_scalar {f : Format} (h : f.Sound) (hs : f.isScalar = true) {p : UInt64}
    (hp : p.toNat < 2 ^ f.width) : f.Accepts ((Node.leaf p).toValue f) ∧
      patternOf f.width (some ((Node.leaf p).toValue f)) = p := by
  obtain ⟨hpos, hle⟩ := h.scalar_width hs
  cases f with
  | bool =>
    refine ⟨trivial, UInt64.toNat_inj.mp ?_⟩
    rw [toNat_patternOf hle]
    change twosComplement 1 (if (p != 0) = true then 1 else 0) = p.toNat
    by_cases hzero : p = 0
    · rw [hzero]
      rfl
    · -- one bit that is not zero is one
      have hone : p.toNat = 1 := by
        have hne : p.toNat ≠ 0 := fun h => hzero (UInt64.toNat_inj.mp h)
        change p.toNat < 2 ^ 1 at hp
        omega
      rw [if_pos (bne_iff_ne.mpr hzero), hone]
      rfl
  | int bits => exact patternOf_signExtend hpos hle hp
  | uint bits =>
    have hcast : ((2 ^ bits : Nat) : Int) = 2 ^ bits := Nat.cast_pow 2 bits
    change p.toNat < 2 ^ bits at hp
    exact ⟨⟨p.toNat, rfl, by omega, by omega⟩, Value.patternOf_uint hle hp⟩
  | enum e =>
    have hcast : ((2 ^ e.bits : Nat) : Int) = 2 ^ e.bits := Nat.cast_pow 2 e.bits
    change p.toNat < 2 ^ e.bits at hp
    exact ⟨⟨p.toNat, rfl, by omega, by omega⟩, Value.patternOf_uint hle hp⟩
  | array | message => exact absurd hs Bool.false_ne_true

-- The record of fitting fields is accepted and stored as they are.
theorem accepts_fieldValues {fields : List FieldFormat} {nodes : List Node}
    (hnames : (fields.map PlacedField.name).Nodup)
    (h : List.Forall₂ (fun f node => f.format.Accepts (node.toValue f.format) ∧
      f.format.store (some (node.toValue f.format)) = node) fields nodes) :
    (∀ entry ∈ Record.ofList (Node.fieldValues nodes fields),
      AcceptEntry fields entry.1 entry.2) ∧
    storeFields fields (some (.message (Record.ofList (Node.fieldValues nodes fields)))) = nodes := by
  have hlen := h.length_eq
  have hnodup : ((Node.fieldValues nodes fields).map Prod.fst).Nodup := by
    rwa [Node.map_fst_fieldValues hlen.symm]
  rw [Node.fieldValues_eq_zipWith] at hnodup ⊢
  constructor
  · intro entry hentry
    have hentry := (Record.ofList_perm hnodup).mem_iff.mp hentry
    obtain ⟨i, hi, rfl⟩ := List.getElem_of_mem hentry
    rw [List.length_zipWith] at hi
    rw [List.getElem_zipWith, acceptEntry_iff]
    exact ⟨_, List.getElem_mem (by omega), rfl, (h.get (by omega) (by omega)).1⟩
  · rw [storeFields_eq_map]
    apply List.ext_getElem (by rw [List.length_map, hlen])
    intro i hi hi'
    rw [List.length_map] at hi
    -- the record has the value of each field under its name
    have hmem : (fields[i].name, nodes[i].toValue fields[i].format) ∈
        List.zipWith (fun f node => (f.name, node.toValue f.format)) fields nodes :=
      List.mem_iff_getElem.mpr ⟨i, by rw [List.length_zipWith]; omega, by
        rw [List.getElem_zipWith]⟩
    rw [List.getElem_map, Option.bind_some, Value.field?_ofList hnodup hmem]
    exact (h.get hi hi').2

/-- A fitting node stands for a value that is accepted and stored as the node. -/
theorem Fits.accepts_toValue {f : Format} {node : Node} (hfit : f.Fits node) (h : f.Sound)
    (hp : f.Proper) : f.Accepts (node.toValue f) ∧ f.store (some (node.toValue f)) = node := by
  induction hfit using Fits.node_induct with
  | scalar f p hs hlt =>
    obtain ⟨haccepts, hpattern⟩ := h.toValue_scalar hs hlt
    exact ⟨haccepts, by rw [store_scalar hs, hpattern]⟩
  | array element items _ ih =>
    have hvalue : (Node.array ⟨items⟩).toValue (.array element items.length) =
        .array (items.map fun item => item.toValue element) := by
      rw [Node.toValue, Node.itemValues_eq_map]
    rw [hvalue]
    constructor
    · refine ⟨List.length_map _, fun value hvalue => ?_⟩
      obtain ⟨item, hitem, rfl⟩ := List.mem_map.mp hvalue
      exact (ih item hitem h.1 hp).1
    · have hstore := store_array element (items.map fun item => item.toValue element)
      rw [List.length_map] at hstore
      have hback : (items.map fun item => element.store (some (item.toValue element))) = items := by
        conv_rhs => rw [← List.map_id' items]
        exact List.map_congr_left fun item hitem => (ih item hitem h.1 hp).2
      rw [hstore, List.map_map]
      exact congrArg (fun items => Node.array ⟨items⟩) hback
  | message name fields totalBits nodes ih =>
    have hfields : List.Forall₂ (fun f node => f.format.Accepts (node.toValue f.format) ∧
        f.format.store (some (node.toValue f.format)) = node) fields nodes := by
      refine List.forall₂_iff_zip.mpr ⟨ih.length_eq, fun {f node} hmem => ?_⟩
      obtain ⟨_, hf⟩ := (List.forall₂_iff_zip.mp ih).2 hmem
      have hmem := (List.of_mem_zip hmem).1
      exact hf (MessageFormat.Sound.field h hmem) (MessageFormat.Proper.field hp hmem)
    obtain ⟨haccepts, hstore⟩ := accepts_fieldValues (MessageFormat.Proper.names_nodup hp) hfields
    exact ⟨haccepts, congrArg (fun nodes => Node.message _ ⟨nodes⟩) hstore⟩

end Format

namespace DynamicMessage

/-- The message that stores a record without checking it. -/
def storing (m : MessageFormat) (r : Record) : DynamicMessage :=
  ⟨m, ⟨Format.storeFields m.fields.toList (some (.message r))⟩⟩

section

variable {m : MessageFormat} (h : m.Sound)

include h

theorem fits_storing (r : Record) : (storing m r).Fits :=
  Format.Sound.fits_store (f := .message m) h (some (.message r))

variable (hp : m.Proper)

include hp

/-- A message is made from a record exactly if its memory can be asked for and every entry is
accepted. -/
theorem ofRecord_ok_iff (r : Record) (msg : DynamicMessage) : ofRecord m r = .ok msg ↔
    m.isAllocatable = true ∧ (Format.message m).Accepts (.message r) ∧ msg = storing m r := by
  rw [ofRecord]
  by_cases ha : m.isAllocatable = true
  · have hnode := Format.Sound.toNode_ok_iff (f := .message m) h hp ha (.message r) .root
    simp only [Value.toNode, MessageFormat.allocate_of ha, Except.bind, map_eq_ok_iff] at hnode
    rw [MessageFormat.allocate_of ha, Except.bind, map_eq_ok_iff, and_iff_right ha]
    constructor
    · rintro ⟨nodes, hnodes, rfl⟩
      obtain ⟨haccepts, hstore⟩ := (hnode (.message m nodes)).mp ⟨nodes, hnodes, rfl⟩
      exact ⟨haccepts, node_inj hstore⟩
    · rintro ⟨haccepts, rfl⟩
      obtain ⟨nodes, hnodes, hstore⟩ := (hnode _).mpr ⟨haccepts, rfl⟩
      exact ⟨nodes, hnodes, node_inj hstore⟩
  · rw [MessageFormat.allocate_of_not ha, Except.bind]
    constructor
    · intro hok
      cases hok
    · intro hall
      exact absurd hall.1 ha

end

-- A fitting message is made from the record of its fields.
theorem Fits.ofRecord_toRecord {msg : DynamicMessage} (hfit : msg.Fits) (h : msg.format.Sound)
    (hp : msg.format.Proper) (ha : msg.format.isAllocatable = true) :
    ofRecord msg.format msg.toRecord = .ok msg := by
  obtain ⟨haccepts, hstore⟩ := Format.Fits.accepts_toValue hfit h hp
  have hback : (storing msg.format msg.toRecord).node = msg.node := hstore
  exact (ofRecord_ok_iff h hp _ _).mpr ⟨ha, haccepts, (node_inj hback).symm⟩

end DynamicMessage

end Bitwire
