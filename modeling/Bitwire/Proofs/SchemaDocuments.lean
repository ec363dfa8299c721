import Bitwire.Proofs.JsonReadBack
import Bitwire.Proofs.RecordOrder
import Bitwire.Schema.Compile
import Bitwire.Schema.Document

/-!
# Schemas as documents

A schema definition that is written as JSON is read back as it was, with every name, number and
flag in its place, whatever library writes and reads it, as long as its types are not nested deeper
than a reader follows them.
-/

namespace Bitwire

/-! ## 1. What JSON values stand for -/

namespace Json

/-- The type reference that a JSON value stands for.  What has no parameter is written as its name,
and what has one as an object whose only member has that name. -/
inductive IsTypeRef : Json → TypeRef → Prop
  | bool : IsTypeRef (.str "Bool") .bool
  | int (bits : UInt8) : IsTypeRef (.obj [("Int", .int bits.toNat)]) (.int bits)
  | uint (bits : UInt8) : IsTypeRef (.obj [("Uint", .int bits.toNat)]) (.uint bits)
  | named (name : String) : IsTypeRef (.obj [("Named", .str name)]) (.named name)
  | array {v : Json} {element : TypeRef} (capacity : UInt64) : IsTypeRef v element →
      IsTypeRef (.obj [("Array", .arr [v, .int capacity.toNat])]) (.array element capacity)

/-- The value of a constant that a JSON value stands for.  Its kind is not written. -/
inductive IsConstantValue : Json → ConstantValue → Prop
  | bool (b : Bool) : IsConstantValue (.bool b) (.bool b)
  | int (v : Int64) : IsConstantValue (.int v.toInt) (.int v)
  | string (s : String) : IsConstantValue (.str s) (.string s)

/-- The constant that a JSON value stands for. -/
def IsConstant (v : Json) (c : ConstantDef) : Prop :=
  v.IsStruct fun members =>
    HasMember members "name" IsText c.name ∧ HasMember members "value" IsConstantValue c.value

/-- The alias that a JSON value stands for. -/
def IsAlias (v : Json) (a : AliasDef) : Prop :=
  v.IsStruct fun members =>
    HasMember members "name" IsText a.name ∧ HasMember members "target" IsTypeRef a.target

/-- The named value of an enum that a JSON value stands for. -/
def IsEnumValue (v : Json) (f : EnumValueDef) : Prop :=
  v.IsStruct fun members =>
    HasMember members "name" IsText f.name ∧ HasMember members "value" IsNumber f.value.toNat

/-- The enum that a JSON value stands for.  It is closed unless it says that it is not. -/
def IsEnum (v : Json) (e : EnumDef) : Prop :=
  v.IsStruct fun members =>
    HasMember members "name" IsText e.name ∧
    HasMember members "bits" IsNumber e.bits.toNat ∧
    HasOptional members "extensible" IsBool false e.extensible ∧
    HasMember members "fields" (IsList IsEnumValue) e.fields

/-- The field of a message that a JSON value stands for. -/
def IsField (v : Json) (f : FieldDef) : Prop :=
  v.IsStruct fun members =>
    HasMember members "number" IsNumber f.number.toNat ∧
    HasMember members "name" IsText f.name ∧
    HasMember members "type" IsTypeRef f.type

/-- The message that a JSON value stands for. -/
def IsMessage (v : Json) (m : MessageDef) : Prop :=
  v.IsStruct fun members =>
    HasMember members "name" IsText m.name ∧ HasMember members "fields" (IsList IsField) m.fields

/-- The schema definition that a JSON value stands for.  Any of its members may be missing. -/
def IsSchema (v : Json) (d : SchemaDef) : Prop :=
  v.IsStruct fun members =>
    HasOptional members "name" IsText "" d.name ∧
    HasOptional members "constants" (IsList IsConstant) [] d.constants ∧
    HasOptional members "aliases" (IsList IsAlias) [] d.aliases ∧
    HasOptional members "enums" (IsList IsEnum) [] d.enums ∧
    HasOptional members "messages" (IsList IsMessage) [] d.messages

/-! ## 2. What represents a schema stands for it -/

theorem isList_map {α : Type} {StandsFor : Json → α → Prop} {write : α → Json}
    (h : ∀ a, StandsFor (write a) a) (as : List α) :
    IsList StandsFor (.arr (as.map write)) as := by
  refine ⟨_, rfl, ?_⟩
  rw [List.forall₂_map_left_iff, List.forall₂_same]
  exact fun a _ => h a

theorem isTypeRef_toJson (type : TypeRef) : type.toJson.IsTypeRef type := by
  induction type with
  | bool => exact .bool
  | int bits => exact .int bits
  | uint bits => exact .uint bits
  | named name => exact .named name
  | array element capacity ih => exact .array capacity ih

theorem isConstantValue_toJson (value : ConstantValue) : value.toJson.IsConstantValue value := by
  cases value with
  | bool b => exact .bool b
  | int v => exact .int v
  | string s => exact .string s

theorem isConstant_obj (c : ConstantDef) :
    IsConstant (.obj [("name", .str c.name), ("value", c.value.toJson)]) c := by
  refine ⟨_, rfl, by simp, ?_, ?_⟩
  · exact ⟨_, by simp, rfl⟩
  · exact ⟨_, by simp, isConstantValue_toJson c.value⟩

theorem isAlias_obj (a : AliasDef) :
    IsAlias (.obj [("name", .str a.name), ("target", a.target.toJson)]) a := by
  refine ⟨_, rfl, by simp, ?_, ?_⟩
  · exact ⟨_, by simp, rfl⟩
  · exact ⟨_, by simp, isTypeRef_toJson a.target⟩

theorem isEnumValue_obj (f : EnumValueDef) :
    IsEnumValue (.obj [("name", .str f.name), ("value", .int f.value.toNat)]) f := by
  refine ⟨_, rfl, by simp, ?_, ?_⟩ <;> exact ⟨_, by simp, rfl⟩

theorem isEnum_obj (e : EnumDef) :
    IsEnum (.obj [("name", .str e.name), ("bits", .int e.bits.toNat),
      ("extensible", .bool e.extensible), ("fields", .arr (e.fields.map fun f =>
        .obj [("name", .str f.name), ("value", .int f.value.toNat)]))]) e := by
  refine ⟨_, rfl, by simp, ?_, ?_, ?_, ?_⟩
  · exact ⟨_, by simp, rfl⟩
  · exact ⟨_, by simp, rfl⟩
  · exact Or.inl ⟨_, by simp, rfl⟩
  · exact ⟨_, by simp, isList_map isEnumValue_obj e.fields⟩

theorem isField_obj (f : FieldDef) :
    IsField (.obj [("number", .int f.number.toNat), ("name", .str f.name),
      ("type", f.type.toJson)]) f := by
  refine ⟨_, rfl, by simp, ?_, ?_, ?_⟩
  · exact ⟨_, by simp, rfl⟩
  · exact ⟨_, by simp, rfl⟩
  · exact ⟨_, by simp, isTypeRef_toJson f.type⟩

theorem isMessage_obj (m : MessageDef) :
    IsMessage (.obj [("name", .str m.name), ("fields", .arr (m.fields.map fun f =>
      .obj [("number", .int f.number.toNat), ("name", .str f.name),
        ("type", f.type.toJson)]))]) m := by
  refine ⟨_, rfl, by simp, ?_, ?_⟩
  · exact ⟨_, by simp, rfl⟩
  · exact ⟨_, by simp, isList_map isField_obj m.fields⟩

/-- What represents a schema definition stands for it. -/
theorem isSchema_toJson (d : SchemaDef) : d.toJson.IsSchema d := by
  refine ⟨_, rfl, by simp, ?_, ?_, ?_, ?_, ?_⟩ <;> apply Or.inl
  · exact ⟨_, by simp, rfl⟩
  · exact ⟨_, by simp, isList_map isConstant_obj d.constants⟩
  · exact ⟨_, by simp, isList_map isAlias_obj d.aliases⟩
  · exact ⟨_, by simp, isList_map isEnum_obj d.enums⟩
  · exact ⟨_, by simp, isList_map isMessage_obj d.messages⟩

end Json

namespace DocumentReader

open Json

/-! ## 3. Readers of parts -/

/-- The reader gives the value for every JSON value that stands for it, if there is room. -/
def Gives {α : Type} (read : DocumentReader α) (StandsFor : Json → α → Prop) (a : α) : Prop :=
  ∀ v room, StandsFor v a → v.nesting ≤ room → read room v = some a

theorem bool_gives (b : Bool) : Gives bool IsBool b := by
  intro v room hv _
  rw [hv, bool]

theorem string_gives (s : String) : Gives string IsText s := by
  intro v room hv _
  rw [hv, string]

theorem integer_int {lo hi v : Int} (h : lo ≤ v ∧ v < hi) (room : Nat) :
    integer lo hi room (.int v) = some v := by
  rw [integer, if_pos h]

theorem natural_gives {n hi : Nat} (h : n < hi) : Gives (natural hi) IsNumber n := by
  intro v room hv _
  rw [hv, natural, integer_int ⟨Int.natCast_nonneg n, Int.ofNat_lt.mpr h⟩, Option.map_some,
    Int.toNat_natCast]

theorem natural_int {n hi : Nat} (h : n < hi) (room : Nat) :
    natural hi room (.int n) = some n :=
  natural_gives h _ room rfl (Nat.zero_le room)

theorem items_gives {α : Type} {read : DocumentReader α} {StandsFor : Json → α → Prop}
    {as : List α} {elements : List Json} (hlist : List.Forall₂ StandsFor elements as)
    (h : ∀ a, Gives read StandsFor a) {room : Nat}
    (hroom : ∀ element ∈ elements, element.nesting ≤ room) : items read room elements = some as := by
  induction hlist with
  | nil => rfl
  | @cons element a _ _ hfirst _ ih =>
    obtain ⟨helement, hothers⟩ := List.forall_mem_cons.mp hroom
    rw [items, h a element room hfirst helement, ih hothers]

theorem list_gives {α : Type} {read : DocumentReader α} {StandsFor : Json → α → Prop}
    (h : ∀ a, Gives read StandsFor a) (as : List α) : Gives (list read) (IsList StandsFor) as := by
  rintro v room ⟨elements, rfl, hlist⟩ hroom
  obtain ⟨inner, rfl, hinner⟩ := (nesting_arr_le_iff _ _).mp hroom
  rw [list]
  exact items_gives hlist h hinner

/-! ## 4. Readers of structures -/

theorem distinctMembers_of_nodup (known : List String) {members : Members}
    (h : (members.map Prod.fst).Nodup) : distinctMembers known members = true := by
  induction members with
  | nil => rfl
  | cons member rest ih =>
    obtain ⟨hnone, hrest⟩ := List.nodup_cons.mp h
    have hfirst : rest.any (·.1 == member.1) = false := by
      rw [List.any_eq_false]
      intro other hother heq
      exact hnone (eq_of_beq heq ▸ List.mem_map_of_mem hother)
    rw [distinctMembers, hfirst, ih hrest, Bool.not_false, Bool.or_true, Bool.true_and]

/-- The members of a structure list each name once, and there is room for each of them. -/
structure Fit (members : Members) (room : Nat) : Prop where
  names : (members.map Prod.fst).Nodup
  nesting {name : String} {v : Json} : (name, v) ∈ members → v.nesting ≤ room

-- The members of a structure are read with one level less.
theorem structureOf_gives {α : Type} {known : List String} {read : Nat → Members → Option α}
    {P : α → Members → Prop} {a : α}
    (hread : ∀ members room, Fit members room → P a members → read room members = some a) :
    Gives (structureOf known read) (fun v a => v.IsStruct (P a)) a := by
  rintro v room ⟨members, rfl, hnames, hmembers⟩ hroom
  obtain ⟨inner, rfl, hinner⟩ := (nesting_obj_le_iff _ _).mp hroom
  rw [structureOf, if_pos (distinctMembers_of_nodup known hnames)]
  exact hread members inner ⟨hnames, fun hmem => hinner _ hmem⟩ hmembers

namespace Fit

variable {α : Type} {members : Members} {room : Nat} (hfit : Fit members room)
  {name : String} {read : DocumentReader α} {StandsFor : Json → α → Prop} {a : α}
  (hread : Gives read StandsFor a)

include hfit hread

theorem required_eq (h : HasMember members name StandsFor a) :
    required name read room members = some a := by
  obtain ⟨v, hmem, hv⟩ := h
  rw [required, lookup_of_mem hfit.names hmem, Option.bind_some]
  exact hread v room hv (hfit.nesting hmem)

theorem optional_eq {usual : α} (h : HasOptional members name StandsFor usual a) :
    DocumentReader.optional name usual read room members = some a := by
  obtain ⟨v, hmem, hv⟩ | ⟨hnone, rfl⟩ := h
  · rw [DocumentReader.optional, lookup_of_mem hfit.names hmem]
    exact hread v room hv (hfit.nesting hmem)
  · have hlookup : members.lookup name = none := by
      rw [List.lookup_eq_none_iff]
      intro member hmember
      exact bne_iff_ne.mpr fun heq => hnone (heq ▸ List.mem_map_of_mem hmember)
    rw [DocumentReader.optional, hlookup]

end Fit

end DocumentReader

open DocumentReader Json

/-! ## 5. Readers of definitions -/

-- An object with one member leaves all but one level to it.
theorem exists_inner {name : String} {j : Json} {room : Nat}
    (h : (Json.obj [(name, j)]).nesting ≤ room) : ∃ inner, room = inner + 1 ∧ j.nesting ≤ inner := by
  obtain ⟨inner, hroom, hinner⟩ := (Json.nesting_obj_le_iff _ _).mp h
  exact ⟨inner, hroom, hinner _ List.mem_cons_self⟩

theorem TypeRef.ofJson?_gives (type : TypeRef) : Gives TypeRef.ofJson? IsTypeRef type := by
  intro v room h
  induction h generalizing room with
  | bool =>
    intro _
    rw [ofJson?]
  | int bits =>
    intro hroom
    obtain ⟨inner, rfl, -⟩ := exists_inner hroom
    rw [ofJson?, natural_int bits.toNat_lt, Option.map_some, UInt8.ofNat_toNat]
  | uint bits =>
    intro hroom
    obtain ⟨inner, rfl, -⟩ := exists_inner hroom
    rw [ofJson?, natural_int bits.toNat_lt, Option.map_some, UInt8.ofNat_toNat]
  | named name =>
    intro hroom
    obtain ⟨inner, rfl, hname⟩ := exists_inner hroom
    rw [ofJson?, string_gives name _ inner rfl hname, Option.map_some]
  | @array _ element capacity _ ih =>
    intro hroom
    obtain ⟨outer, rfl, hpair⟩ := exists_inner hroom
    obtain ⟨inner, rfl, hinner⟩ := (Json.nesting_arr_le_iff _ _).mp hpair
    rw [ofJson?, ih inner (hinner _ List.mem_cons_self), natural_int capacity.toNat_lt_size]
    exact congrArg (fun n => some (TypeRef.array element n)) capacity.ofNat_toNat

theorem ConstantValue.ofJson?_gives (value : ConstantValue) :
    Gives ConstantValue.ofJson? IsConstantValue value := by
  intro v room h _
  cases h with
  | bool b => rfl
  | int n =>
    have hrange := And.intro n.minValue_le_toInt (Int.lt_add_one_of_le n.toInt_le)
    rw [ofJson?, int64, integer_int hrange, Option.map_some, Option.map_some, Int64.ofInt_toInt]
  | string s => rfl

namespace SchemaDef

theorem readConstant_gives (c : ConstantDef) : Gives readConstant IsConstant c := by
  refine structureOf_gives fun members room hfit h => ?_
  obtain ⟨hname, hvalue⟩ := h
  rw [hfit.required_eq (string_gives _) hname,
    hfit.required_eq (ConstantValue.ofJson?_gives _) hvalue]
  rfl

theorem readAlias_gives (a : AliasDef) : Gives readAlias IsAlias a := by
  refine structureOf_gives fun members room hfit h => ?_
  obtain ⟨hname, htarget⟩ := h
  rw [hfit.required_eq (string_gives _) hname, hfit.required_eq (TypeRef.ofJson?_gives _) htarget]
  rfl

theorem readEnumValue_gives (f : EnumValueDef) : Gives readEnumValue IsEnumValue f := by
  refine structureOf_gives fun members room hfit h => ?_
  obtain ⟨hname, hvalue⟩ := h
  rw [hfit.required_eq (string_gives _) hname,
    hfit.required_eq (natural_gives f.value.toNat_lt_size) hvalue]
  exact congrArg (fun v => some (EnumValueDef.mk f.name v)) f.value.ofNat_toNat

theorem readEnum_gives (e : EnumDef) : Gives readEnum IsEnum e := by
  refine structureOf_gives fun members room hfit h => ?_
  obtain ⟨hname, hbits, hextensible, hfields⟩ := h
  rw [hfit.required_eq (string_gives _) hname,
    hfit.required_eq (natural_gives e.bits.toNat_lt) hbits,
    hfit.optional_eq (bool_gives _) hextensible,
    hfit.required_eq (list_gives readEnumValue_gives _) hfields]
  exact congrArg (fun bits => some (EnumDef.mk e.name bits e.extensible e.fields)) e.bits.ofNat_toNat

theorem readField_gives (f : FieldDef) : Gives readField IsField f := by
  refine structureOf_gives fun members room hfit h => ?_
  obtain ⟨hnumber, hname, htype⟩ := h
  rw [hfit.required_eq (natural_gives f.number.toNat_lt_size) hnumber,
    hfit.required_eq (string_gives _) hname, hfit.required_eq (TypeRef.ofJson?_gives _) htype]
  exact congrArg (fun number => some (FieldDef.mk number f.name f.type)) f.number.ofNat_toNat

theorem readMessage_gives (m : MessageDef) : Gives readMessage IsMessage m := by
  refine structureOf_gives fun members room hfit h => ?_
  obtain ⟨hname, hfields⟩ := h
  rw [hfit.required_eq (string_gives _) hname,
    hfit.required_eq (list_gives readField_gives _) hfields]
  rfl

/-- A schema definition is read from what stands for it. -/
theorem read_gives (d : SchemaDef) : Gives SchemaDef.read IsSchema d := by
  refine structureOf_gives fun members room hfit h => ?_
  obtain ⟨hname, hconstants, haliases, henums, hmessages⟩ := h
  rw [hfit.optional_eq (string_gives _) hname,
    hfit.optional_eq (list_gives readConstant_gives _) hconstants,
    hfit.optional_eq (list_gives readAlias_gives _) haliases,
    hfit.optional_eq (list_gives readEnum_gives _) henums,
    hfit.optional_eq (list_gives readMessage_gives _) hmessages]
  rfl

end SchemaDef

/-! ## 6. Texts -/

theorem TypeRef.native_toJson (type : TypeRef) : type.toJson.Native := by
  induction type with
  | bool => exact .str "Bool"
  | int | uint | named => simp [toJson, Json.native_obj_iff, Json.Native.int, Json.Native.str]
  | array element capacity ih =>
    simp [toJson, Json.native_obj_iff, Json.native_arr_iff, ih, Json.Native.int]

theorem ConstantValue.native_toJson (value : ConstantValue) : value.toJson.Native := by
  cases value with
  | bool b => exact .bool b
  | int v => exact .int v.toInt
  | string s => exact .str s

namespace SchemaDef

/-- Every schema definition has a text. -/
theorem native_toJson (d : SchemaDef) : d.toJson.Native := by
  simp [toJson, Json.native_obj_iff, Json.native_arr_iff, Json.Native.str, Json.Native.int,
    Json.Native.bool, ConstantValue.native_toJson, TypeRef.native_toJson]

/-- The library of this development reads and prints schema definitions as documented. -/
theorem library_documented : library.Documented toJson IsSchema :=
  JsonLibrary.standard_documented native_toJson fun v d hnesting hd => read_gives d v _ hd hnesting

/-- With a library that does what is documented, a schema definition whose types are not nested too
deep is read back from its text as it was, and so it is compiled as before. -/
theorem compile_reread {lib : JsonLibrary SchemaDef} (hlib : lib.Documented toJson IsSchema)
    {d : SchemaDef} (h : d.toJson.nesting ≤ maxNesting) :
    ∃ text, d.text? lib = some text ∧ parse? lib text = some d ∧
      ∀ reread, parse? lib text = some reread → Schema.compile reread = Schema.compile d := by
  obtain ⟨text, htext, hspells⟩ := hlib.pretty d
  have hparse : parse? lib text = some d := hlib.read hspells h (isSchema_toJson d)
  refine ⟨text, htext, hparse, fun reread hreread => ?_⟩
  rw [hparse] at hreread
  rw [Option.some.inj hreread]

/-- A schema with every kind of definition and of constant. -/
def observatory : SchemaDef where
  name := "obs\x01\"ervatory\""
  constants := [⟨"π", .int Int64.minValue⟩, ⟨"", .bool true⟩, ⟨"note", .string "a\\b\n"⟩]
  aliases := [⟨"Grid", .array (.array (.named "Wind") 3) 0xffffffffffffffff⟩]
  enums := [⟨"Wind", 64, true, [⟨"calm", 0⟩, ⟨"storm", 0xffffffffffffffff⟩]⟩]
  messages := [⟨"Sky", [⟨65535, "cover", .uint 255⟩, ⟨0, "day", .bool⟩, ⟨7, "grid", .named "Grid"⟩]⟩,
    ⟨"Void", []⟩]

theorem compile_reread_observatory : library.Documented toJson IsSchema ∧
    observatory.toJson.nesting ≤ maxNesting ∧
      ∃ text, observatory.text? library = some text ∧ parse? library text = some observatory := by
  have h : observatory.toJson.nesting ≤ maxNesting := by decide
  obtain ⟨text, htext, hparse, -⟩ := compile_reread library_documented h
  exact ⟨library_documented, h, text, htext, hparse⟩

end SchemaDef

end Bitwire
