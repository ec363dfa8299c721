import Bitwire.Proofs.WellFormedSchemas

/-!
# Denoted types

Which compiled type a written type stands for.  A type that stands for a made one says much about
the schema: what it names is declared and does not come back to itself, and the exact width of the
one is that of the other.
-/

namespace Bitwire

/-- The enum that a definition declares. -/
def EnumDef.type (e : EnumDef) : EnumType :=
  ⟨e.name, e.bits.toNat, e.extensible, e.fields.map fun f => ⟨f.name, f.value⟩⟩

/-- The enums that are made are the well-formed ones. -/
theorem EnumDef.make_ok_iff (e : EnumDef) :
    EnumType.make e.name e.bits.toNat e.extensible (e.fields.map fun f => ⟨f.name, f.value⟩) =
      .ok e.type ↔ e.WellFormed := by
  refine EnumType.make_ok_iff.trans ?_
  rw [List.map_map, List.map_map, List.forall_mem_map]
  exact ⟨fun ⟨hbits, hnames, hvalues, hfits⟩ => ⟨hbits, hnames, hvalues, hfits⟩,
    fun h => ⟨h.bits, h.names_nodup, h.values_nodup, h.fits⟩⟩

-- What is in the second of two lists whose elements belong together has a partner in the first.
theorem exists_partner {α β : Type} {R : α → β → Prop} {as : List α} {bs : List β}
    (h : List.Forall₂ R as bs) {b : β} (hb : b ∈ bs) : ∃ a ∈ as, R a b := by
  obtain ⟨i, hi, rfl⟩ := List.getElem_of_mem hb
  have hi' : i < as.length := h.length_eq.symm ▸ hi
  exact ⟨as[i], List.getElem_mem hi', h.get hi' hi⟩

-- What agrees on elements that belong together agrees on the lists.
theorem map_eq_of_partners {α β γ : Type} {R : α → β → Prop} {f : α → γ} {g : β → γ}
    (hfg : ∀ a b, R a b → g b = f a) {as : List α} {bs : List β} (h : List.Forall₂ R as bs) :
    bs.map g = as.map f := by
  induction h with
  | nil => rfl
  | cons hab _ ih => rw [List.map_cons, List.map_cons, hfg _ _ hab, ih]

namespace SchemaDef

/-! ## 1. Types -/

mutual

/-- The compiled type that a written type stands for. -/
inductive Denotes (d : SchemaDef) : TypeRef → WireType → Prop
  | bool : Denotes d .bool .bool
  | int (bits : UInt8) : Denotes d (.int bits) (.int bits.toNat)
  | uint (bits : UInt8) : Denotes d (.uint bits) (.uint bits.toNat)
  | array {element : TypeRef} {t : WireType} (capacity : UInt64) :
      Denotes d element t → Denotes d (.array element capacity) (.array t capacity.toNat)
  | aliased {a : AliasDef} {t : WireType} :
      .aliasDef a ∈ d.definitions → Denotes d a.target t →
        Denotes d (.named a.name) (.aliased a.name t)
  | enum {e : EnumDef} :
      .enumDef e ∈ d.definitions → Denotes d (.named e.name) (.enum e.type)
  | message {m : MessageDef} {type : MessageType} :
      .messageDef m ∈ d.definitions → type.name = m.name → DenoteAll d m.fields type.fields →
        Denotes d (.named m.name) (.message type)

/-- The fields that written fields stand for, in the same order. -/
inductive DenoteAll (d : SchemaDef) : List FieldDef → List Field → Prop
  | nil : DenoteAll d [] []
  | cons {f : FieldDef} {g : Field} {rest : List FieldDef} {types : List Field} :
      g.number = f.number → g.name = f.name → Denotes d f.type g.type → DenoteAll d rest types →
        DenoteAll d (f :: rest) (g :: types)

end

variable {d : SchemaDef}

theorem denoteAll_iff {fields : List FieldDef} {types : List Field} : d.DenoteAll fields types ↔
    List.Forall₂ (fun f g => g.number = f.number ∧ g.name = f.name ∧ d.Denotes f.type g.type)
      fields types := by
  induction fields generalizing types with
  | nil =>
    cases types with
    | nil => exact ⟨fun _ => .nil, fun _ => .nil⟩
    | cons => constructor <;> (intro h; cases h)
  | cons f rest ih =>
    cases types with
    | nil => constructor <;> (intro h; cases h)
    | cons g types =>
      rw [List.forall₂_cons, ← ih]
      constructor
      · intro h
        cases h with
        | cons hnumber hname htype hrest => exact ⟨⟨hnumber, hname, htype⟩, hrest⟩
      · rintro ⟨⟨hnumber, hname, htype⟩, hrest⟩
        exact .cons hnumber hname htype hrest

theorem DenoteAll.map_name {fields : List FieldDef} {types : List Field}
    (h : d.DenoteAll fields types) : types.map FieldOf.name = fields.map FieldDef.name :=
  map_eq_of_partners (fun _ _ hf => hf.2.1) (denoteAll_iff.mp h)

theorem DenoteAll.map_number {fields : List FieldDef} {types : List Field}
    (h : d.DenoteAll fields types) : types.map FieldOf.number = fields.map FieldDef.number :=
  map_eq_of_partners (fun _ _ hf => hf.1) (denoteAll_iff.mp h)

theorem DenoteAll.exists_type {fields : List FieldDef} {types : List Field}
    (h : d.DenoteAll fields types) {f : FieldDef} (hf : f ∈ fields) :
    ∃ g ∈ types, d.Denotes f.type g.type := by
  induction fields generalizing types with
  | nil => exact absurd hf List.not_mem_nil
  | cons f' rest ih =>
    cases h with
    | cons _ _ htype hrest =>
      rcases List.mem_cons.mp hf with rfl | hf
      · exact ⟨_, List.mem_cons_self, htype⟩
      · obtain ⟨g, hg, hdenotes⟩ := ih hrest hf
        exact ⟨g, List.mem_cons_of_mem _ hg, hdenotes⟩

/-! ## 2. What a name stands for -/

section

variable (hnames : d.names.Nodup)

include hnames

theorem Denotes.of_alias {a : AliasDef} {t : WireType} (ha : a ∈ d.aliases)
    (h : d.Denotes (.named a.name) t) :
    ∃ target, t = .aliased a.name target ∧ d.Denotes a.target target := by
  have ha := aliasDef_mem.mpr ha
  generalize hn : a.name = n at h
  cases h with
  | aliased hb htarget =>
    cases definition_unique hnames ha hb hn
    exact ⟨_, rfl, htarget⟩
  | enum hb => cases definition_unique hnames ha hb hn
  | message hb _ _ => cases definition_unique hnames ha hb hn

theorem Denotes.of_enum {e : EnumDef} {t : WireType} (he : e ∈ d.enums)
    (h : d.Denotes (.named e.name) t) : t = .enum e.type := by
  have he := enumDef_mem.mpr he
  generalize hn : e.name = n at h
  cases h with
  | aliased hb _ => cases definition_unique hnames he hb hn
  | enum hb =>
    cases definition_unique hnames he hb hn
    rfl
  | message hb _ _ => cases definition_unique hnames he hb hn

theorem Denotes.of_message {m : MessageDef} {t : WireType} (hm : m ∈ d.messages)
    (h : d.Denotes (.named m.name) t) :
    ∃ type : MessageType, t = .message type ∧ type.name = m.name ∧
      d.DenoteAll m.fields type.fields := by
  have hm := messageDef_mem.mpr hm
  generalize hn : m.name = n at h
  cases h with
  | aliased hb _ => cases definition_unique hnames hm hb hn
  | enum hb => cases definition_unique hnames hm hb hn
  | message hb hname hfields =>
    cases definition_unique hnames hm hb hn
    exact ⟨_, rfl, hname, hfields⟩

end

/-! ## 3. Names and bounds -/

-- What a type with a meaning names is declared.
theorem Denotes.declares {r : TypeRef} {t : WireType} (h : d.Denotes r t) {n : String}
    (hn : n ∈ r.names) : d.Declares n := by
  induction r generalizing t with
  | bool | int | uint => exact absurd hn List.not_mem_nil
  | array element capacity ih => cases h with | array _ h => exact ih h hn
  | named n' =>
    obtain rfl := List.mem_singleton.mp hn
    cases h with
    | aliased ha _ => exact ⟨_, ha, rfl⟩
    | enum he => exact ⟨_, he, rfl⟩
    | message hm _ _ => exact ⟨_, hm, rfl⟩

theorem Denotes.inBounds {r : TypeRef} {t : WireType} (h : d.Denotes r t) (ht : t.Made) :
    r.InBounds := by
  induction r generalizing t with
  | bool | named => trivial
  | int bits => cases h with | int => exact WireType.checkBits_ok (WireType.bind_checkBits_ok ht).1
  | uint bits =>
    cases h with | uint => exact WireType.checkBits_ok (WireType.bind_checkBits_ok ht).1
  | array element capacity ih =>
    cases h with | array _ h => exact ⟨ih h ht.1, (WireType.makeArray_ok ht.2).1⟩

mutual

-- Following names comes to an end: the type that a name stands for holds those of the names that
-- its definition refers to.
theorem Denotes.acc (hnames : d.names.Nodup) {r : TypeRef} {t : WireType} :
    d.Denotes r t → ∀ n ∈ r.names, Acc (flip d.RefersTo) n
  | .bool => fun _ hn => absurd hn List.not_mem_nil
  | .int _ => fun _ hn => absurd hn List.not_mem_nil
  | .uint _ => fun _ hn => absurd hn List.not_mem_nil
  | .array _ h => fun n hn => Denotes.acc hnames h n hn
  | .aliased ha h => by
    intro n hn
    obtain rfl := List.mem_singleton.mp hn
    refine Acc.intro _ fun n' ⟨x, hx, hname, hmem⟩ => ?_
    obtain rfl := definition_unique hnames hx ha hname
    obtain ⟨r', hr', hn'⟩ := List.mem_flatMap.mp hmem
    obtain rfl := List.mem_singleton.mp hr'
    exact Denotes.acc hnames h n' hn'
  | .enum he => by
    intro n hn
    obtain rfl := List.mem_singleton.mp hn
    refine Acc.intro _ fun n' ⟨x, hx, hname, hmem⟩ => ?_
    obtain rfl := definition_unique hnames hx he hname
    exact absurd hmem List.not_mem_nil
  | .message hm _ h => by
    intro n hn
    obtain rfl := List.mem_singleton.mp hn
    refine Acc.intro _ fun n' ⟨x, hx, hname, hmem⟩ => ?_
    obtain rfl := definition_unique hnames hx hm hname
    obtain ⟨r', hr', hn'⟩ := List.mem_flatMap.mp hmem
    obtain ⟨f, hf, rfl⟩ := List.mem_map.mp hr'
    exact DenoteAll.acc hnames h f hf n' hn'

theorem DenoteAll.acc (hnames : d.names.Nodup) {fields : List FieldDef} {types : List Field} :
    d.DenoteAll fields types → ∀ f ∈ fields, ∀ n ∈ f.type.names, Acc (flip d.RefersTo) n
  | .nil => fun _ hf => absurd hf List.not_mem_nil
  | .cons _ _ h hrest =>
    List.forall_mem_cons.mpr ⟨Denotes.acc hnames h, DenoteAll.acc hnames hrest⟩

end

/-! ## 4. Widths -/

mutual

/-- The exact width of a written type is that of the type it stands for. -/
theorem Denotes.occupies {r : TypeRef} {t : WireType} :
    d.Denotes r t → d.Occupies r t.exactWidth
  | .bool => .bool
  | .int bits => .int bits
  | .uint bits => .uint bits
  | .enum he => .enum he
  | .aliased ha h => by
    rw [WireType.exactWidth]
    exact .aliased ha (Denotes.occupies h)
  | .array capacity h => .array capacity (Denotes.occupies h)
  | @Denotes.message _ _ type hm _ h => by
    rw [WireType.exactWidth_message]
    exact .message hm (DenoteAll.occupy h)

theorem DenoteAll.occupy {fields : List FieldDef} {types : List Field} :
    d.DenoteAll fields types → d.AllOccupy fields (types.map fun g => g.type.exactWidth).sum
  | .nil => .nil
  | .cons _ _ h hrest => .cons (Denotes.occupies h) (DenoteAll.occupy hrest)

end

-- Fields have room in a message if their exact widths do.
theorem DenoteAll.room_iff (hnames : d.names.Nodup) {fields : List FieldDef} {types : List Field}
    (h : d.DenoteAll fields types) (ht : ∀ g ∈ types, g.type.Made) :
    (types.map fun g => g.type.width).sum ≤ Layout.maxBits ↔
      ∃ w, d.AllOccupy fields w ∧ w ≤ Layout.maxBits := by
  rw [WireType.room_iff fun g hg => (ht g hg).expressible.width_eq]
  constructor
  · exact fun hle => ⟨_, h.occupy, hle⟩
  · rintro ⟨v, hv, hle⟩
    rwa [h.occupy.unique hnames hv]

/-! ## 5. Well-formed schemas -/

-- A name that can be followed to the end does not lead back to itself.
theorem not_transGen_of_acc {n : String} (h : Acc (flip d.RefersTo) n) :
    ¬ Relation.TransGen d.RefersTo n n := by
  have hacc : Acc (Relation.TransGen (flip d.RefersTo)) n := h.transGen
  induction hacc with
  | intro n _ ih =>
    intro hcycle
    exact ih n (Relation.transGen_swap.mpr hcycle) h hcycle

/-- A schema is well formed if its names are distinct, its enums are well formed and every type in
it stands for a made one. -/
theorem wellFormed_of_denotes (hnames : d.names.Nodup) (henums : ∀ e ∈ d.enums, e.WellFormed)
    (haliases : ∀ a ∈ d.aliases, ∃ t, d.Denotes a.target t ∧ t.Made)
    (hmessages : ∀ m ∈ d.messages, ∃ type : MessageType,
      d.DenoteAll m.fields type.fields ∧ type.Made) : d.WellFormed := by
  have htypes : ∀ x ∈ d.definitions, ∀ r ∈ x.types, ∃ t, d.Denotes r t ∧ t.Made := by
    intro x hx r hr
    cases x with
    | aliasDef a =>
      obtain rfl := List.mem_singleton.mp hr
      exact haliases a (aliasDef_mem.mp hx)
    | enumDef e => exact absurd hr List.not_mem_nil
    | messageDef m =>
      obtain ⟨f, hf, rfl⟩ := List.mem_map.mp hr
      obtain ⟨type, hfields, hmade⟩ := hmessages m (messageDef_mem.mp hx)
      obtain ⟨g, hg, hdenotes⟩ := hfields.exists_type hf
      exact ⟨g.type, hdenotes, hmade.field hg⟩
  refine ⟨hnames, fun x hx n hn => ?_, fun n hcycle => ?_, fun x hx r hr => ?_, henums,
    fun m hm => ?_⟩
  · obtain ⟨r, hr, hn⟩ := List.mem_flatMap.mp hn
    obtain ⟨t, ht, -⟩ := htypes x hx r hr
    exact ht.declares hn
  · -- a name on a cycle is mentioned by a definition, whose types can be followed to the end
    obtain ⟨_, -, x, hx, -, hn⟩ := Relation.TransGen.tail'_iff.mp hcycle
    obtain ⟨r, hr, hn⟩ := List.mem_flatMap.mp hn
    obtain ⟨t, ht, -⟩ := htypes x hx r hr
    exact not_transGen_of_acc (ht.acc hnames n hn) hcycle
  · obtain ⟨t, ht, hmade⟩ := htypes x hx r hr
    exact ht.inBounds hmade
  · obtain ⟨type, hfields, hmade⟩ := hmessages m hm
    have hroom := hmade.consistent.totalBits_le
    rw [hmade.consistent.totalBits_eq_sum] at hroom
    exact ⟨hfields.map_name ▸ hmade.consistent.names_nodup,
      hfields.map_number ▸ hmade.consistent.numbers_nodup,
      (hfields.room_iff hnames fun g hg => hmade.field hg).mp hroom⟩

end SchemaDef

end Bitwire
