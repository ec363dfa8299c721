import Bitwire.Proofs.ExactWidths

/-!
# Well-formed schemas

What makes a schema well formed is said of its definitions alone, without resolving anything: names
are distinct and declared, no definition refers back to itself, and every width is in bounds.  The
width of a type is a relation between the written type and an exact number, which no ceiling cuts
off.
-/

namespace Bitwire

/-! ## 1. References -/

namespace TypeRef

/-- The names that a type refers to, at any array depth. -/
def names : TypeRef → List String
  | .named n => [n]
  | .array element _ => element.names
  | _ => []

/-- Integers of `1` to `64` bits and arrays with elements, at any array depth. -/
def InBounds : TypeRef → Prop
  | .int bits => 1 ≤ bits.toNat ∧ bits.toNat ≤ 64
  | .uint bits => 1 ≤ bits.toNat ∧ bits.toNat ≤ 64
  | .array element capacity => element.InBounds ∧ 1 ≤ capacity.toNat
  | _ => True

end TypeRef

namespace Definition

/-- The types that a definition is written with. -/
def types : Definition → List TypeRef
  | .aliasDef d => [d.target]
  | .enumDef _ => []
  | .messageDef d => d.fields.map FieldDef.type

/-- The names that a definition refers to. -/
def mentions (x : Definition) : List String :=
  x.types.flatMap TypeRef.names

end Definition

namespace SchemaDef

/-- The names of all definitions, constants included. -/
def names (d : SchemaDef) : List String :=
  d.definitions.map Definition.name ++ d.constants.map ConstantDef.name

/-- Whether types can refer to a name. -/
def Declares (d : SchemaDef) (n : String) : Prop :=
  ∃ x ∈ d.definitions, x.name = n

/-- The definition of the first name refers to the second. -/
def RefersTo (d : SchemaDef) (n n' : String) : Prop :=
  ∃ x ∈ d.definitions, x.name = n ∧ n' ∈ x.mentions

/-! ## 2. Exact widths -/

mutual

/-- The exact width of a type: that of the definition behind a name, and for an array that of all
its elements. -/
inductive Occupies (d : SchemaDef) : TypeRef → Nat → Prop
  | bool : Occupies d .bool 1
  | int (bits : UInt8) : Occupies d (.int bits) bits.toNat
  | uint (bits : UInt8) : Occupies d (.uint bits) bits.toNat
  | array {element : TypeRef} {w : Nat} (capacity : UInt64) :
      Occupies d element w → Occupies d (.array element capacity) (w * capacity.toNat)
  | aliased {a : AliasDef} {w : Nat} :
      .aliasDef a ∈ d.definitions → Occupies d a.target w → Occupies d (.named a.name) w
  | enum {e : EnumDef} : .enumDef e ∈ d.definitions → Occupies d (.named e.name) e.bits.toNat
  | message {m : MessageDef} {w : Nat} :
      .messageDef m ∈ d.definitions → AllOccupy d m.fields w → Occupies d (.named m.name) w

/-- The exact width of fields taken together. -/
inductive AllOccupy (d : SchemaDef) : List FieldDef → Nat → Prop
  | nil : AllOccupy d [] 0
  | cons {f : FieldDef} {rest : List FieldDef} {w v : Nat} :
      Occupies d f.type w → AllOccupy d rest v → AllOccupy d (f :: rest) (w + v)

end

end SchemaDef

/-! ## 3. Well-formed schemas -/

/-- Enums whose values are distinct and fit in a width in bounds. -/
structure EnumDef.WellFormed (e : EnumDef) : Prop where
  bits : 1 ≤ e.bits.toNat ∧ e.bits.toNat ≤ 64
  names_nodup : (e.fields.map EnumValueDef.name).Nodup
  values_nodup : (e.fields.map EnumValueDef.value).Nodup
  fits : ∀ f ∈ e.fields, f.value.toNat < 2 ^ e.bits.toNat

/-- Messages whose fields have distinct names and numbers, and have room in a message. -/
structure MessageDef.WellFormed (d : SchemaDef) (m : MessageDef) : Prop where
  names_nodup : (m.fields.map FieldDef.name).Nodup
  numbers_nodup : (m.fields.map FieldDef.number).Nodup
  room : ∃ w, d.AllOccupy m.fields w ∧ w ≤ Layout.maxBits

/-- Schemas that can be compiled. -/
structure SchemaDef.WellFormed (d : SchemaDef) : Prop where
  names_nodup : d.names.Nodup
  declared : ∀ x ∈ d.definitions, ∀ n ∈ x.mentions, d.Declares n
  acyclic : ∀ n, ¬ Relation.TransGen d.RefersTo n n
  inBounds : ∀ x ∈ d.definitions, ∀ r ∈ x.types, r.InBounds
  enums : ∀ e ∈ d.enums, e.WellFormed
  messages : ∀ m ∈ d.messages, m.WellFormed d

namespace SchemaDef

variable {d : SchemaDef}

/-! ## 4. Definitions by name -/

theorem aliasDef_mem {a : AliasDef} : .aliasDef a ∈ d.definitions ↔ a ∈ d.aliases := by
  simp [definitions]

theorem enumDef_mem {e : EnumDef} : .enumDef e ∈ d.definitions ↔ e ∈ d.enums := by
  simp [definitions]

theorem messageDef_mem {m : MessageDef} : .messageDef m ∈ d.definitions ↔ m ∈ d.messages := by
  simp [definitions]

-- Distinct names: a name has one definition.
theorem definition_unique (h : d.names.Nodup) {x y : Definition} (hx : x ∈ d.definitions)
    (hy : y ∈ d.definitions) (hname : x.name = y.name) : x = y :=
  List.inj_on_of_nodup_map (List.nodup_append.mp h).1 hx hy hname

theorem find?_some {n : String} {x : Definition} (h : d.find? n = some x) :
    x ∈ d.definitions ∧ x.name = n := by
  have hname := List.find?_some h
  exact ⟨List.mem_of_find?_eq_some h, eq_of_beq hname⟩

theorem find?_none {n : String} (h : d.find? n = none) : ¬ d.Declares n := by
  intro ⟨x, hx, hname⟩
  have hne := List.find?_eq_none.mp h x hx
  exact hne (beq_iff_eq.mpr hname)

/-! ## 5. One width -/

mutual

-- A type has one width: with distinct names, a name leads to one definition.
theorem Occupies.unique (hnames : d.names.Nodup) {r : TypeRef} {w v : Nat} :
    d.Occupies r w → d.Occupies r v → w = v
  | .bool, hv => by cases hv with | bool => rfl
  | .int _, hv => by cases hv with | int => rfl
  | .uint _, hv => by cases hv with | uint => rfl
  | .array _ hw, hv => by cases hv with | array _ hv => rw [Occupies.unique hnames hw hv]
  | @Occupies.aliased _ a _ ha hw, hv => by
    generalize hn : a.name = n at hv
    cases hv with
    | aliased hb hv =>
      cases definition_unique hnames ha hb hn
      exact Occupies.unique hnames hw hv
    | enum hb => cases definition_unique hnames ha hb hn
    | message hb _ => cases definition_unique hnames ha hb hn
  | @Occupies.enum _ e ha, hv => by
    generalize hn : e.name = n at hv
    cases hv with
    | aliased hb _ => cases definition_unique hnames ha hb hn
    | enum hb =>
      cases definition_unique hnames ha hb hn
      rfl
    | message hb _ => cases definition_unique hnames ha hb hn
  | @Occupies.message _ m _ ha hw, hv => by
    generalize hn : m.name = n at hv
    cases hv with
    | aliased hb _ => cases definition_unique hnames ha hb hn
    | enum hb => cases definition_unique hnames ha hb hn
    | message hb hv =>
      cases definition_unique hnames ha hb hn
      exact AllOccupy.unique hnames hw hv

theorem AllOccupy.unique (hnames : d.names.Nodup) {fields : List FieldDef} {w v : Nat} :
    d.AllOccupy fields w → d.AllOccupy fields v → w = v
  | .nil, hv => by cases hv with | nil => rfl
  | .cons hw hws, hv => by
    cases hv with
    | cons hv hvs => rw [Occupies.unique hnames hw hv, AllOccupy.unique hnames hws hvs]

end

end SchemaDef

end Bitwire
