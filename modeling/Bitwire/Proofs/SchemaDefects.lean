import Bitwire.Proofs.DenotedTypes

/-!
# Defects of schemas

An error of compiling names what is wrong with the schema.  What each error says is put here in terms
of the definitions alone, sizes as exact widths.  A schema with a defect is not well formed, and the
faults that makers find in what definitions stand for are defects of the schema.
-/

namespace Bitwire

/-! ## 1. Widths and capacities -/

namespace TypeRef

/-- The widths of the integers in a type, at any array depth. -/
def bitWidths : TypeRef → List Nat
  | .int bits => [bits.toNat]
  | .uint bits => [bits.toNat]
  | .array element _ => element.bitWidths
  | _ => []

/-- The capacities of the arrays in a type. -/
def capacities : TypeRef → List Nat
  | .array element capacity => capacity.toNat :: element.capacities
  | _ => []

theorem inBounds_iff {r : TypeRef} :
    r.InBounds ↔ (∀ bits ∈ r.bitWidths, 1 ≤ bits ∧ bits ≤ 64) ∧ ∀ c ∈ r.capacities, 1 ≤ c := by
  induction r with
  | bool | named => simp [InBounds, bitWidths, capacities]
  | int | uint => simp [InBounds, bitWidths, capacities]
  | array element capacity ih =>
    rw [InBounds, ih, bitWidths, capacities, List.forall_mem_cons, and_assoc]
    exact and_congr_right fun _ => And.comm

end TypeRef

namespace Definition

/-- The widths of the integers that a definition is written with, and that of an enum. -/
def bitWidths : Definition → List Nat
  | .enumDef e => [e.bits.toNat]
  | x => x.types.flatMap TypeRef.bitWidths

/-- The capacities of the arrays that a definition is written with. -/
def capacities (x : Definition) : List Nat :=
  x.types.flatMap TypeRef.capacities

end Definition

/-- The fields of a message by number; fields of one number keep their order. -/
def MessageDef.sortedFields (m : MessageDef) : List FieldDef :=
  m.fields.mergeSort fun a b => decide (a.number ≤ b.number)

namespace SchemaDef

/-- The widths of all integers and enums of a schema. -/
def bitWidths (d : SchemaDef) : List Nat :=
  d.definitions.flatMap Definition.bitWidths

/-- The capacities of all arrays of a schema. -/
def capacities (d : SchemaDef) : List Nat :=
  d.definitions.flatMap Definition.capacities

/-! ## 2. Defects -/

/-- The defects of a schema, each with the error that describes it. -/
inductive Defect (d : SchemaDef) : SchemaError → Prop
  /-- A name is declared more than once. -/
  | duplicateDefinition {n : String} :
      2 ≤ d.names.count n → Defect d (.duplicateDefinition n)
  /-- A name that a definition refers to is declared by none. -/
  | unresolvedType {x : Definition} {n : String} :
      x ∈ d.definitions → n ∈ x.mentions → ¬ d.Declares n → Defect d (.unresolvedType n)
  /-- Following references from a definition leads back to it. -/
  | cyclicType {n : String} : Relation.TransGen d.RefersTo n n → Defect d (.cyclicType n)
  | invalidBitWidth {bits : Nat} :
      bits ∈ d.bitWidths → ¬ (1 ≤ bits ∧ bits ≤ 64) → Defect d (.invalidBitWidth bits)
  | invalidArrayCapacity : 0 ∈ d.capacities → Defect d .invalidArrayCapacity
  | duplicateEnumField {e : EnumDef} {n : String} : e ∈ d.enums →
      2 ≤ (e.fields.map EnumValueDef.name).count n → Defect d (.duplicateEnumField e.name n)
  | duplicateEnumValue {e : EnumDef} {v : UInt64} : e ∈ d.enums →
      2 ≤ (e.fields.map EnumValueDef.value).count v → Defect d (.duplicateEnumValue e.name v)
  | enumValueOverflow {e : EnumDef} {f : EnumValueDef} : e ∈ d.enums → f ∈ e.fields →
      2 ^ e.bits.toNat ≤ f.value.toNat → Defect d (.enumValueOverflow e.name f.value e.bits.toNat)
  | duplicateFieldName {m : MessageDef} {n : String} : m ∈ d.messages →
      2 ≤ (m.fields.map FieldDef.name).count n → Defect d (.duplicateFieldName m.name n)
  | duplicateFieldNumber {m : MessageDef} {number : UInt16} : m ∈ d.messages →
      2 ≤ (m.fields.map FieldDef.number).count number →
      Defect d (.duplicateFieldNumber m.name number)
  /-- A message is wider than the largest message.  The error gives the width of its fields up to
  the first that has no room, by number; widths are reported up to a ceiling. -/
  | messageTooLarge {m : MessageDef} {front back : List FieldDef} {f : FieldDef} {total w v : Nat} :
      m ∈ d.messages → d.AllOccupy m.fields total → Layout.maxBits < total →
      m.sortedFields = front ++ f :: back → d.AllOccupy front w → w ≤ Layout.maxBits →
      d.Occupies f.type v → Layout.maxBits < w + v →
      Defect d (.messageTooLarge m.name (min (w + v) Layout.widthCeiling))

variable {d : SchemaDef}

theorem not_nodup_of_count {α : Type} [DecidableEq α] {l : List α} {a : α} (h : 2 ≤ l.count a) :
    ¬ l.Nodup :=
  (List.duplicate_iff_two_le_count.mpr h).not_nodup

-- The widths and the capacities in a type are among those of the schema it is written in.
theorem bitWidths_subset {x : Definition} (hx : x ∈ d.definitions) {r : TypeRef} (hr : r ∈ x.types) :
    r.bitWidths ⊆ d.bitWidths := by
  intro bits hbits
  refine List.mem_flatMap.mpr ⟨x, hx, ?_⟩
  cases x with
  | enumDef e => exact absurd hr List.not_mem_nil
  | aliasDef | messageDef => exact List.mem_flatMap.mpr ⟨r, hr, hbits⟩

theorem capacities_subset {x : Definition} (hx : x ∈ d.definitions) {r : TypeRef}
    (hr : r ∈ x.types) : r.capacities ⊆ d.capacities :=
  fun _ hc => List.mem_flatMap.mpr ⟨x, hx, List.mem_flatMap.mpr ⟨r, hr, hc⟩⟩

theorem WellFormed.bitWidths_inBounds (h : d.WellFormed) {bits : Nat} (hbits : bits ∈ d.bitWidths) :
    1 ≤ bits ∧ bits ≤ 64 := by
  obtain ⟨x, hx, hbits⟩ := List.mem_flatMap.mp hbits
  cases x with
  | enumDef e =>
    obtain rfl := List.mem_singleton.mp hbits
    exact (h.enums e (enumDef_mem.mp hx)).bits
  | aliasDef | messageDef =>
    obtain ⟨r, hr, hbits⟩ := List.mem_flatMap.mp hbits
    exact (TypeRef.inBounds_iff.mp (h.inBounds _ hx r hr)).1 _ hbits

theorem WellFormed.capacities_pos (h : d.WellFormed) {c : Nat} (hc : c ∈ d.capacities) : 1 ≤ c := by
  obtain ⟨x, hx, hc⟩ := List.mem_flatMap.mp hc
  obtain ⟨r, hr, hc⟩ := List.mem_flatMap.mp hc
  exact (TypeRef.inBounds_iff.mp (h.inBounds _ hx r hr)).2 _ hc

/-- A well-formed schema has no defect. -/
theorem Defect.not_wellFormed {e : SchemaError} (h : d.Defect e) : ¬ d.WellFormed := by
  intro hwell
  cases h with
  | duplicateDefinition hn => exact not_nodup_of_count hn hwell.names_nodup
  | unresolvedType hx hn hnot => exact hnot (hwell.declared _ hx _ hn)
  | cyclicType hcycle => exact hwell.acyclic _ hcycle
  | invalidBitWidth hbits hout => exact hout (hwell.bitWidths_inBounds hbits)
  | invalidArrayCapacity hzero => exact absurd (hwell.capacities_pos hzero) (Nat.not_succ_le_zero 0)
  | duplicateEnumField he hn => exact not_nodup_of_count hn (hwell.enums _ he).names_nodup
  | duplicateEnumValue he hv => exact not_nodup_of_count hv (hwell.enums _ he).values_nodup
  | enumValueOverflow he hf hlarge => exact absurd ((hwell.enums _ he).fits _ hf) (Nat.not_lt.mpr hlarge)
  | duplicateFieldName hm hn => exact not_nodup_of_count hn (hwell.messages _ hm).names_nodup
  | duplicateFieldNumber hm hn => exact not_nodup_of_count hn (hwell.messages _ hm).numbers_nodup
  | messageTooLarge hm htotal hlarge =>
    obtain ⟨w, hw, hle⟩ := (hwell.messages _ hm).room
    obtain rfl := htotal.unique hwell.names_nodup hw
    exact absurd hle (Nat.not_le.mpr hlarge)

/-! ## 3. Faults of enums -/

/-- What is wrong with an enum that a definition declares is wrong with the schema. -/
theorem defect_of_enum {e : EnumDef} (he : e ∈ d.enums) {error : SchemaError}
    (h : EnumType.Fault e.name e.bits.toNat (e.fields.map fun f => ⟨f.name, f.value⟩) error) :
    d.Defect error := by
  cases h with
  | width hbits =>
    refine .invalidBitWidth (List.mem_flatMap.mpr ⟨_, enumDef_mem.mpr he, ?_⟩) hbits
    exact List.mem_singleton_self _
  | overflow hf hlarge =>
    obtain ⟨f, hmem, rfl⟩ := List.mem_map.mp hf
    exact .enumValueOverflow he hmem hlarge
  | repeatedName hn =>
    rw [List.map_map] at hn
    exact .duplicateEnumField he hn
  | repeatedValue hv =>
    rw [List.map_map] at hv
    exact .duplicateEnumValue he hv

/-! ## 4. Faults of messages -/

-- Sorted by the same keys, what belongs together still stands together.
theorem forall₂_mergeSort {α β : Type} {R : α → β → Prop} {f : α → UInt16} {g : β → UInt16}
    (hkey : ∀ a b, R a b → g b = f a) {as : List α} {bs : List β} (h : List.Forall₂ R as bs) :
    List.Forall₂ R (as.mergeSort fun a a' => decide (f a ≤ f a'))
      (bs.mergeSort fun b b' => decide (g b ≤ g b')) := by
  have hall : ∀ p ∈ as.zip bs, R p.1 p.2 := fun p hp => (List.forall₂_iff_zip.mp h).2 hp
  have has : (as.zip bs).map Prod.fst = as := List.map_fst_zip h.length_eq.le
  have hbs : (as.zip bs).map Prod.snd = bs := List.map_snd_zip h.length_eq.ge
  let sorted := (as.zip bs).mergeSort fun p q => decide (f p.1 ≤ f q.1)
  have hfst : sorted.map Prod.fst = as.mergeSort fun a a' => decide (f a ≤ f a') := by
    rw [← congrArg (List.mergeSort · fun a a' => decide (f a ≤ f a')) has]
    exact List.map_mergeSort fun p _ q _ => rfl
  have hsnd : sorted.map Prod.snd = bs.mergeSort fun b b' => decide (g b ≤ g b') := by
    rw [← congrArg (List.mergeSort · fun b b' => decide (g b ≤ g b')) hbs]
    refine List.map_mergeSort fun p hp q hq => ?_
    rw [hkey _ _ (hall p hp), hkey _ _ (hall q hq)]
  rw [← hfst, ← hsnd, List.forall₂_map_left_iff, List.forall₂_map_right_iff, List.forall₂_same]
  exact fun p hp => hall p ((List.mergeSort_perm _ _).mem_iff.mp hp)

/-- A written field, and the field of its number whose width is the exact one up to the ceiling. -/
def SizedAs (d : SchemaDef) (f : FieldDef) (s : SizedField) : Prop :=
  s.number = f.number ∧ ∃ w, d.Occupies f.type w ∧ s.width = min w Layout.widthCeiling

theorem DenoteAll.sizedAs {fields : List FieldDef} {types : List Field}
    (h : d.DenoteAll fields types) (ht : ∀ g ∈ types, g.type.Made) :
    List.Forall₂ d.SizedAs fields (types.map FieldOf.sized) := by
  induction fields generalizing types with
  | nil => cases h with | nil => exact .nil
  | cons f rest ih =>
    cases h with
    | cons hnumber _ htype hrest =>
      obtain ⟨hg, hgs⟩ := List.forall_mem_cons.mp ht
      exact .cons ⟨hnumber, _, htype.occupies, hg.expressible.width_eq⟩ (ih hrest hgs)

-- Fields that are cut off one by one are cut off together.
theorem exists_allOccupy {fields : List FieldDef} {sized : List SizedField}
    (h : List.Forall₂ d.SizedAs fields sized) : ∃ w, d.AllOccupy fields w ∧
      min (sized.map SizedField.width).sum Layout.widthCeiling = min w Layout.widthCeiling := by
  induction h with
  | nil => exact ⟨0, .nil, rfl⟩
  | cons hf _ ih =>
    obtain ⟨-, w, hw, hwidth⟩ := hf
    obtain ⟨v, hv, hsum⟩ := ih
    refine ⟨w + v, .cons hw hv, ?_⟩
    rw [List.map_cons, List.sum_cons, hwidth]
    omega

/-- What is wrong with the fields of a message is wrong with the schema. -/
theorem DenoteAll.defect {m : MessageDef} (hm : m ∈ d.messages) {types : List Field}
    (h : d.DenoteAll m.fields types) (ht : ∀ g ∈ types, g.type.Made) {error : SchemaError}
    (hmake : MessageType.make m.name types = .error error) : d.Defect error := by
  have hsized := h.sizedAs ht
  have hlt : Layout.maxBits < Layout.widthCeiling := by decide
  rcases MessageType.make_error hmake with ⟨n, rfl, hn⟩ | hfault
  · rw [h.map_name] at hn
    exact .duplicateFieldName hm hn
  · cases hfault with
    | repeatedNumber hnumber =>
      rw [map_eq_of_partners (fun _ _ hf => hf.1) hsized] at hnumber
      exact .duplicateFieldNumber hm hnumber
    | @noRoom front back s hsplit hroom hlarge =>
      obtain ⟨total, htotal, hsum⟩ := exists_allOccupy hsized
      have hover := Layout.lt_sum_of_sortFields_eq hsplit hlarge
      -- the written fields, sorted, are cut where the sized ones are
      have hsorted : List.Forall₂ d.SizedAs m.sortedFields (front ++ s :: back) :=
        hsplit ▸ forall₂_mergeSort (fun _ _ hf => hf.1) hsized
      have hfront := List.forall₂_take_append _ _ _ hsorted
      obtain ⟨f, rest, ⟨-, v, hv, hwidth⟩, -, hrest⟩ :=
        List.forall₂_cons_right_iff.mp (List.forall₂_drop_append _ _ _ hsorted)
      obtain ⟨w, hw, hbefore⟩ := exists_allOccupy hfront
      have hfields : m.sortedFields = m.sortedFields.take front.length ++ f :: rest := by
        rw [← hrest, List.take_append_drop]
      have hbits : min ((front.map SizedField.width).sum + s.width) Layout.widthCeiling =
          min (w + v) Layout.widthCeiling := by omega
      rw [hbits]
      exact .messageTooLarge hm htotal (by omega) hfields hw (by omega) hv (by omega)

end SchemaDef

end Bitwire
