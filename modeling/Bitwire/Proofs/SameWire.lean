import Bitwire.Proofs.SchemaAcceptance

/-!
# Messages with one wire format

The layout and the format of a message depend on its name and on its fields as a set: their numbers,
names, widths and formats.  How the types of the fields are called, and in which order the fields
are declared, leaves no trace, and neither does the order of the values of an enum.  Messages with
one format are encoded and decoded alike.
-/

namespace Bitwire

namespace MessageType

/-! ## 1. One wire format -/

-- The entry of a field in a layout can be read off its place in the format.
theorem placed_map_sized {fields : List Field}
    (h : ∀ f ∈ fields, f.type.format.width = f.type.width) (offset : Nat) :
    Layout.placed offset (fields.map FieldOf.sized) = (placedFields offset fields).map fun p =>
      ⟨p.number, p.name, p.offset, p.format.width⟩ := by
  induction fields generalizing offset with
  | nil => rfl
  | cons f rest ih =>
    obtain ⟨hf, hrest⟩ := List.forall_mem_cons.mp h
    rw [List.map_cons, Layout.placed, placedFields, List.map_cons, hf]
    exact congrArg _ (ih hrest _)

-- The format of a made message says what its layout is.
theorem Made.layout_eq {m : MessageType} (h : m.Made) : m.layout =
    ⟨(m.format.fields.toList.map fun p => ⟨p.number, p.name, p.offset, p.format.width⟩).toArray,
      m.format.totalBits⟩ := by
  have hwidth : ∀ f ∈ m.sortedFields, f.type.format.width = f.type.width := fun f hf =>
    ((h.field (mem_sortedFields.mp hf)).format (h.sized_le (mem_sortedFields.mp hf))).2.2
  have hentries := h.consistent.entries_eq
  rw [placed_map_sized hwidth, ← h.consistent.format_fields] at hentries
  have htotal := h.format.2.2
  cases hlayout : m.layout
  rw [hlayout] at hentries htotal
  rw [← hentries, htotal]

/-- Message types that cannot be told apart on the wire. -/
structure SameWire (m m' : MessageType) : Prop where
  layout : m'.layout = m.layout
  format : m'.format = m.format
  encode : ∀ r, m'.encode r = m.encode r
  decode : ∀ data config, m'.decode data config = m.decode data config

-- A codec consults the format and nothing else.
theorem Made.sameWire {m m' : MessageType} (h : m.Made) (h' : m'.Made)
    (hformat : m'.format = m.format) : m.SameWire m' where
  layout := by rw [h'.layout_eq, h.layout_eq, hformat]
  format := hformat
  encode r := by rw [MessageType.encode, MessageType.encode, hformat]
  decode data config := by
    have hdecoded : m'.decoded data = m.decoded data := by
      rw [MessageType.decoded, MessageType.decoded, hformat]
    rw [MessageType.decode, MessageType.decode, hdecoded, hformat]

end MessageType

/-- Schemas that have messages of the same names, each with one wire format in both. -/
def Schema.SameWire (schema schema' : Schema) : Prop :=
  ∀ name, Option.Rel MessageType.SameWire (schema.message? name) (schema'.message? name)

/-! ## 2. The fields of a message -/

/-- What the wire format of a message depends on in a field. -/
def FieldOf.wire (f : Field) : UInt16 × String × Nat × Format :=
  (f.number, f.name, f.type.width, f.type.format)

namespace MessageType

theorem placedFields_congr {fields fields' : List Field}
    (h : fields'.map FieldOf.wire = fields.map FieldOf.wire) (offset : Nat) :
    placedFields offset fields' = placedFields offset fields := by
  induction fields generalizing fields' offset with
  | nil => rw [List.map_eq_nil_iff.mp h]
  | cons f rest ih =>
    cases fields' with
    | nil => exact absurd h.symm (List.cons_ne_nil _ _)
    | cons f' rest' =>
      obtain ⟨hf, hrest⟩ := List.cons.inj h
      obtain ⟨hnumber, hname, hwidth, hformat⟩ : f'.number = f.number ∧ f'.name = f.name ∧
          f'.type.width = f.type.width ∧ f'.type.format = f.type.format := by
        simpa [FieldOf.wire] using hf
      rw [placedFields, placedFields, hnumber, hname, hwidth, hformat, ih hrest]

namespace Consistent

variable {m m' : MessageType}

-- Sorted by number, the same fields stand in the same order.
theorem map_sortedFields (h : m.Consistent) (h' : m'.Consistent)
    (hperm : (m'.fields.map FieldOf.wire).Perm (m.fields.map FieldOf.wire)) :
    m'.sortedFields.map FieldOf.wire = m.sortedFields.map FieldOf.wire := by
  have hsorted : (m.sortedFields.map FieldOf.wire).Pairwise fun v w => v.1 < w.1 :=
    List.pairwise_map.mpr h.ascending
  have hsorted' : (m'.sortedFields.map FieldOf.wire).Pairwise fun v w => v.1 < w.1 :=
    List.pairwise_map.mpr h'.ascending
  refine List.Perm.eq_of_pairwise (fun v w _ _ hvw hwv => ?_) hsorted' hsorted ?_
  · exact absurd (UInt16.lt_trans hvw hwv) (UInt16.lt_irrefl _)
  · exact ((List.mergeSort_perm _ _).map _).trans (hperm.trans ((List.mergeSort_perm _ _).map _).symm)

/-- Messages of one name with the same fields, in any order, have one format. -/
theorem format_of_perm (h : m.Consistent) (h' : m'.Consistent) (hname : m'.name = m.name)
    (hperm : (m'.fields.map FieldOf.wire).Perm (m.fields.map FieldOf.wire)) :
    m'.format = m.format := by
  rw [h'.format_eq, h.format_eq, hname, placedFields_congr (h.map_sortedFields h' hperm)]

end Consistent

/-- The fields of a made message, rearranged and with other types of the same format, make a message
with the same format. -/
theorem Made.exists_rearranged {m : MessageType} (h : m.Made) {fields : List Field}
    (hfields : ∀ f ∈ fields, f.type.Made)
    (hperm : (fields.map FieldOf.wire).Perm (m.fields.map FieldOf.wire)) :
    ∃ m' : MessageType, m'.name = m.name ∧ m'.fields = fields ∧ m'.Made ∧ m'.format = m.format := by
  have hc := h.consistent
  have hnumbers := hperm.map fun w => w.1
  have hnames := hperm.map fun w => w.2.1
  have hwidths := hperm.map fun w => w.2.2.1
  simp only [List.map_map] at hnumbers hnames hwidths
  have hroom : (fields.map fun f => f.type.width).sum = (m.fields.map fun f => f.type.width).sum :=
    hwidths.sum_nat
  obtain ⟨m', hmake⟩ := @make_eq_ok m.name _ (hnames.nodup_iff.mpr hc.names_nodup)
    (hnumbers.nodup_iff.mpr hc.numbers_nodup) (by
      rw [hroom, ← hc.totalBits_eq_sum]
      exact hc.totalBits_le)
  obtain ⟨hname, rfl, hc'⟩ := make_ok hmake
  rw [← hname] at hmake
  exact ⟨m', hname, rfl, ⟨(WireType.allMade_iff _).mpr hfields, hmake⟩,
    hc.format_of_perm hc' hname hperm⟩

theorem Made.eq_of_fields {m m' : MessageType} (h : m.Made) (h' : m'.Made) (hname : m'.name = m.name)
    (hfields : m'.fields = m.fields) : m' = m := by
  have hmake : make m.name m.fields = .ok m := h.2
  have hmake' : make m'.name m'.fields = .ok m' := h'.2
  rw [hname, hfields, hmake] at hmake'
  exact (Except.ok.inj hmake').symm

end MessageType

/-! ## 3. The values of an enum -/

theorem EnumFormat.ofValues_perm {values values' : List UInt64} (h : values'.Perm values)
    (name : String) (bits : Nat) (extensible : Bool) :
    ofValues name bits extensible values' = ofValues name bits extensible values := by
  have hsorted : (values'.mergeSort fun a b => decide (a ≤ b)) =
      values.mergeSort fun a b => decide (a ≤ b) := by
    refine List.Perm.eq_of_pairwise (fun a b _ _ hab hba => UInt64.le_antisymm hab hba)
      (Bisect.pairwise_mergeSort id values') (Bisect.pairwise_mergeSort id values) ?_
    exact (List.mergeSort_perm _ _).trans (h.trans (List.mergeSort_perm _ _).symm)
  rw [ofValues, ofValues, hsorted]

/-- Enum definitions that differ in the order of their values at most. -/
structure EnumDef.Rearranged (e e' : EnumDef) : Prop where
  name : e'.name = e.name
  bits : e'.bits = e.bits
  extensible : e'.extensible = e.extensible
  fields : e'.fields.Perm e.fields

namespace EnumDef.Rearranged

variable {e e' : EnumDef}

theorem refl (e : EnumDef) : e.Rearranged e :=
  ⟨rfl, rfl, rfl, List.Perm.refl _⟩

theorem symm (h : e.Rearranged e') : e'.Rearranged e :=
  ⟨h.name.symm, h.bits.symm, h.extensible.symm, h.fields.symm⟩

theorem wellFormed (h : e.Rearranged e') (hwell : e.WellFormed) : e'.WellFormed where
  bits := h.bits ▸ hwell.bits
  names_nodup := (h.fields.map _).nodup_iff.mpr hwell.names_nodup
  values_nodup := (h.fields.map _).nodup_iff.mpr hwell.values_nodup
  fits f hf := h.bits ▸ hwell.fits f (h.fields.mem_iff.mp hf)

theorem format (h : e.Rearranged e') : e'.type.format = e.type.format := by
  change EnumFormat.ofValues e'.name e'.bits.toNat e'.extensible (e'.type.fields.map EnumValue.value) = _
  rw [h.name, h.bits, h.extensible]
  exact EnumFormat.ofValues_perm ((h.fields.map _).map _) _ _ _

end EnumDef.Rearranged

/-! ## 4. One compiled type -/

namespace SchemaDef

variable {d : SchemaDef}

-- Fields in another order stand for the same fields in another order.
theorem DenoteAll.of_perm {fields fields' : List FieldDef} {types : List Field}
    (h : d.DenoteAll fields types) (hperm : fields'.Perm fields) :
    ∃ types', d.DenoteAll fields' types' ∧ types'.Perm types := by
  obtain ⟨types', hall, hperm'⟩ := List.perm_comp_forall₂ hperm (denoteAll_iff.mp h)
  exact ⟨types', denoteAll_iff.mpr hall, hperm'⟩

mutual

/-- A written type stands for one made type at most. -/
theorem Denotes.unique (hnames : d.names.Nodup) {r : TypeRef} {t t' : WireType} :
    d.Denotes r t → t.Made → d.Denotes r t' → t'.Made → t' = t
  | .bool, _, h', _ => by cases h' with | bool => rfl
  | .int _, _, h', _ => by cases h' with | int => rfl
  | .uint _, _, h', _ => by cases h' with | uint => rfl
  | .array _ h, ht, h', ht' => by
    cases h' with
    | array _ h' => rw [Denotes.unique hnames h ht.1 h' ht'.1]
  | .aliased ha h, ht, h', ht' => by
    obtain ⟨target, rfl, htarget⟩ := h'.of_alias hnames (aliasDef_mem.mp ha)
    rw [Denotes.unique hnames h ht htarget ht']
  | .enum he, _, h', _ => h'.of_enum hnames (enumDef_mem.mp he)
  | @Denotes.message _ _ type hm hname h, ht, h', ht' => by
    obtain ⟨type', rfl, hname', h'⟩ := h'.of_message hnames (messageDef_mem.mp hm)
    have hmade : type.Made := ht
    have hmade' : type'.Made := ht'
    have hfields := DenoteAll.unique hnames h (fun _ => hmade.field) h' fun _ => hmade'.field
    rw [hmade.eq_of_fields hmade' (hname'.trans hname.symm) hfields]

theorem DenoteAll.unique (hnames : d.names.Nodup) {fields : List FieldDef} {types types' : List Field} :
    d.DenoteAll fields types → (∀ g ∈ types, g.type.Made) → d.DenoteAll fields types' →
      (∀ g ∈ types', g.type.Made) → types' = types
  | .nil, _, h', _ => by cases h' with | nil => rfl
  | @DenoteAll.cons _ _ g _ types hnumber hname h hrest, ht, h', ht' => by
    cases h' with
    | @cons _ g' _ types' hnumber' hname' h' hrest' =>
      obtain ⟨hg, htypes⟩ := List.forall_mem_cons.mp ht
      obtain ⟨hg', htypes'⟩ := List.forall_mem_cons.mp ht'
      have htype := Denotes.unique hnames h hg h' hg'
      have hfield : g' = g := by
        cases g
        cases g'
        exact congr (congrArg₂ FieldOf.mk (hnumber'.trans hnumber.symm) (hname'.trans hname.symm)) htype
      rw [hfield, DenoteAll.unique hnames hrest htypes hrest' htypes']

end

end SchemaDef

end Bitwire
