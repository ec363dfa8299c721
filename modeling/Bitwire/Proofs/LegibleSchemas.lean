import Bitwire.Proofs.BuiltFormats
import Bitwire.Proofs.IdentifierNames
import Bitwire.Proofs.UnbrokenLines

/-!
# Legible schemas

If all names of a schema can be taken for names, as identifiers can, then so can all identifiers
that its module makes of them, and no text that is made of them breaks a line.
-/

namespace Bitwire

open SourceReader

/-- All names of a schema can be taken for names; its own name only stands in one line. -/
structure SchemaDef.Named (d : SchemaDef) : Prop where
  name : IsLine d.name
  constants : ∀ c ∈ d.constants, IsName c.name
  aliases : ∀ a ∈ d.aliases, IsName a.name
  enums : ∀ e ∈ d.enums, IsName e.name
  enumFields : ∀ e ∈ d.enums, ∀ f ∈ e.fields, IsName f.name
  messages : ∀ m ∈ d.messages, IsName m.name
  messageFields : ∀ m ∈ d.messages, ∀ f ∈ m.fields, IsName f.name

/-! ## 1. Identifiers -/

namespace SourceReader

theorem IsName.append {s t : String} (hs : IsName s) (ht : IsName t) : IsName (s ++ t) := by
  rw [IsName, String.toList_append]
  exact List.forall_mem_append.mpr ⟨hs, ht⟩

theorem isName_enumFunction {name : String} (h : IsName name) :
    IsName (WireType.enumFunction name) :=
  (Identifier.isName_snakeCase h).append (by decide)

theorem isName_sizeIdent {name : String} (h : IsName name) :
    IsName (SourceModule.sizeIdent name) :=
  IsName.append (by decide) (Identifier.isName_upperSnakeCase h)

theorem isLine_ofField {name : String} (h : IsName name) : IsLine (Identifier.ofField name) := by
  have hident := (Identifier.isName_snakeCase h).isLine
  rw [Identifier.ofField]
  split_ifs
  · exact hident.append (isLine_chars _ rfl rfl)
  · exact (isLine_chars _ rfl rfl).append hident
  · exact hident

theorem isLine_integerType (signed : Bool) (bits : Nat) :
    IsLine (Identifier.integerType signed bits) := by
  rw [Identifier.integerType]
  refine IsLine.append ?_ ?_
  · split_ifs <;> exact isLine_chars _ rfl rfl
  · split_ifs <;> exact isLine_chars _ rfl rfl

end SourceReader

/-! ## 2. Types -/

namespace WireType

-- Going into an array adds to a place what stands in one line.
theorem isLine_elementPlace (t : WireType) {place : String} (h : IsLine place) (level : Nat) :
    IsLine (t.elementPlace place level).2 := by
  induction t using WireType.induct generalizing place level with
  | scalar t hs =>
    cases t with
    | bool | int | uint | enum => exact h
    | aliased | array | message => exact absurd hs Bool.false_ne_true
  | aliased name target ih => exact ih h level
  | array element capacity ih =>
    exact ih (h.append (((isLine_chars _ rfl rfl).append (isLine_repr level)).append
      (isLine_chars _ rfl rfl))) (level + 1)
  | message m _ => exact h

end WireType

namespace SchemaDef

variable {d : SchemaDef} (hd : d.Named)

include hd

theorem Named.name_message {r : TypeRef} {m : MessageType} (hr : d.Denotes r (.message m)) :
    IsName m.name := by
  cases hr with
  | message hdef hname _ => exact hname ▸ hd.messages _ (messageDef_mem.mp hdef)

theorem Named.name_enum {r : TypeRef} {e : EnumType} (hr : d.Denotes r (.enum e)) :
    IsName e.name := by
  cases hr with
  | enum hdef => exact hd.enums _ (enumDef_mem.mp hdef)

theorem Named.isLine_typeExpr {r : TypeRef} {t : WireType} (hr : d.Denotes r t) :
    IsLine t.typeExpr.text := by
  induction t using WireType.induct generalizing r with
  | scalar t hs =>
    cases t with
    | bool => exact isLine_chars _ rfl rfl
    | int bits => exact isLine_integerType true bits
    | uint bits => exact isLine_integerType false bits
    | enum e => exact (hd.name_enum hr).isLine
    | aliased | array | message => exact absurd hs Bool.false_ne_true
  | aliased name target ih =>
    cases hr with
    | aliased hdef _ => exact (hd.aliases _ (aliasDef_mem.mp hdef)).isLine
  | array element capacity ih =>
    cases hr with
    | array _ helement =>
      exact ((((isLine_chars _ rfl rfl).append (ih helement)).append (isLine_chars _ rfl rfl)).append
        (isLine_repr _)).append (isLine_chars _ rfl rfl)
  | message m _ => exact (hd.name_message hr).isLine

theorem Named.isLine_zeroExpr {r : TypeRef} {t : WireType} (hr : d.Denotes r t) :
    IsLine t.zeroExpr.text := by
  induction t using WireType.induct generalizing r with
  | scalar t hs =>
    cases t with
    | bool | int | uint | enum => exact isLine_chars _ rfl rfl
    | aliased | array | message => exact absurd hs Bool.false_ne_true
  | aliased name target ih =>
    cases hr with
    | aliased _ htarget => exact ih htarget
  | array element capacity ih =>
    cases hr with
    | array _ helement =>
      exact ((isLine_chars _ rfl rfl).append (ih helement)).append (isLine_chars _ rfl rfl)
  | message m _ => exact (hd.name_message hr).isLine.append (isLine_chars _ rfl rfl)

theorem Named.formatExpr {r : TypeRef} {t : WireType} (hr : d.Denotes r t) :
    t.formatExpr.Named := by
  induction t using WireType.induct generalizing r with
  | scalar t hs =>
    cases t with
    | bool | int | uint => exact trivial
    | enum e => exact isName_enumFunction (hd.name_enum hr)
    | aliased | array | message => exact absurd hs Bool.false_ne_true
  | aliased name target ih =>
    cases hr with
    | aliased _ htarget => exact ih htarget
  | array element capacity ih =>
    cases hr with
    | array _ helement => exact ih helement
  | message m _ => exact hd.name_message hr

end SchemaDef

/-! ## 3. Items -/

theorem Arm.isLine_ofField? {f : Field} (hname : IsName f.name) {arm : Arm}
    (h : Arm.ofField? f = some arm) : IsLine arm.place ∧ IsLine arm.kind.typeText := by
  have hplace := f.type.isLine_elementPlace
    ((isLine_chars _ rfl rfl).append (isLine_ofField hname) :
      IsLine ("self." ++ Identifier.ofField f.name)) 0
  rw [Arm.ofField?] at h
  revert h hplace
  generalize f.type.elementPlace ("self." ++ Identifier.ofField f.name) 0 = leaf
  obtain ⟨leaf, place⟩ := leaf
  intro h hplace
  cases leaf with
  | bool =>
    obtain rfl := Option.some.inj h
    exact ⟨hplace, isLine_chars _ rfl rfl⟩
  | uint bits =>
    obtain rfl := Option.some.inj h
    exact ⟨hplace, isLine_integerType false bits⟩
  | enum e =>
    obtain rfl := Option.some.inj h
    exact ⟨hplace, isLine_integerType false e.bits⟩
  | int bits =>
    obtain rfl := Option.some.inj h
    exact ⟨hplace, isLine_integerType true bits⟩
  | message m =>
    obtain rfl := Option.some.inj h
    exact ⟨hplace, isLine_chars _ rfl rfl⟩
  | aliased | array => cases h

namespace SourceModule

-- The items of a module are those of its constants, aliases, enums and messages.
theorem mem_items {schema : Schema} {codecPath : String} {item : Item} :
    item ∈ (ofSchema schema codecPath).items ↔
      (∃ c ∈ schema.constants, .constant (Identifier.upperSnakeCase c.name) c.value = item) ∨
      (∃ a ∈ schema.aliases, .typeAlias a.name a.target.typeExpr = item) ∨
      (∃ e ∈ schema.enums, item ∈ (enumGroups e).flatten) ∨
      ∃ m ∈ schema.messages, item ∈ (messageGroups m).flatten := by
  simp only [items, ofSchema, List.flatten_append, List.mem_append, List.flatten_cons,
    List.flatten_nil, List.append_nil, List.mem_map, List.mem_flatten, List.mem_flatMap]
  constructor
  · rintro (((h | h) | ⟨group, ⟨e, he, hgroup⟩, hitem⟩) | ⟨group, ⟨m, hm, hgroup⟩, hitem⟩)
    · exact .inl h
    · exact .inr (.inl h)
    · exact .inr (.inr (.inl ⟨e, he, group, hgroup, hitem⟩))
    · exact .inr (.inr (.inr ⟨m, hm, group, hgroup, hitem⟩))
  · rintro (h | h | ⟨e, he, group, hgroup, hitem⟩ | ⟨m, hm, group, hgroup, hitem⟩)
    · exact .inl (.inl (.inl h))
    · exact .inl (.inl (.inr h))
    · exact .inl (.inr ⟨group, ⟨e, he, hgroup⟩, hitem⟩)
    · exact .inr ⟨group, ⟨m, hm, hgroup⟩, hitem⟩

-- What an enum declares.
theorem mem_enumGroups {e : EnumType} {item : Item} : item ∈ (enumGroups e).flatten ↔
    item = .typeAlias e.name (.named (Identifier.integerType false e.bits)) ∨
    (∃ f ∈ e.fields, .enumValue (Identifier.upperSnakeCase f.name) e.name f.value = item) ∨
    item = .enumNames (Identifier.snakeCase e.name ++ "_name") e.name
      (e.fields.map fun f => (Identifier.upperSnakeCase f.name, f.name)) ∨
    item = e.formatItem := by
  simp only [enumGroups, EnumType.formatItem, List.flatten_cons, List.flatten_nil,
    List.append_nil, List.mem_append, List.mem_singleton, List.mem_map]

-- What a message declares.
theorem mem_messageGroups {m : MessageType} {item : Item} : item ∈ (messageGroups m).flatten ↔
    item = .byteCount (sizeIdent m.name) m.byteCount ∨
    item = .struct m.name m.layout.totalBits (m.fields.map fun f =>
      ⟨f.number, (m.layout.get? f.number).map fun entry => (entry.offset, entry.stop),
        Identifier.ofField f.name, f.type.typeExpr⟩) ∨
    item = .structDefault m.name
      (m.fields.map fun f => (Identifier.ofField f.name, f.type.zeroExpr)) ∨
    item = .accessor m.name (m.sortedFields.filterMap Arm.ofField?) ∨
    item = m.codecItem := by
  simp only [messageGroups, MessageType.codecItem, MessageType.fieldExprs, List.flatten_cons,
    List.flatten_nil, List.append_nil, List.mem_append, List.mem_singleton]

end SourceModule

/-! ## 4. Schemas -/

namespace Schema

variable {d : SchemaDef} {schema : Schema}

theorem legible_enum (hd : d.Named) {e : EnumDef} (he : e ∈ d.enums) :
    ∀ item ∈ (SourceModule.enumGroups e.type).flatten, Legible item := by
  have hname := hd.enums e he
  have hfields : ∀ f ∈ e.type.fields, IsName (Identifier.upperSnakeCase f.name) := by
    intro f hf
    obtain ⟨value, hvalue, rfl⟩ := List.mem_map.mp hf
    exact Identifier.isName_upperSnakeCase (hd.enumFields e he value hvalue)
  intro item hitem
  rcases SourceModule.mem_enumGroups.mp hitem with rfl | ⟨f, hf, rfl⟩ | rfl | rfl
  · exact ⟨hname, isLine_integerType false e.type.bits⟩
  · exact ⟨hfields f hf, hname⟩
  · refine ⟨(Identifier.isName_snakeCase hname).append (by decide), hname, fun arm harm => ?_⟩
    obtain ⟨f, hf, rfl⟩ := List.mem_map.mp harm
    exact hfields f hf
  · exact isName_enumFunction hname

theorem legible_message (hd : d.Named) {def' : MessageDef} (hdef : def' ∈ d.messages)
    {m : MessageType} (hname : m.name = def'.name) (hall : d.DenoteAll def'.fields m.fields) :
    ∀ item ∈ (SourceModule.messageGroups m).flatten, Legible item := by
  have hm : IsName m.name := hname ▸ hd.messages def' hdef
  have hfields : ∀ f ∈ m.fields, IsName f.name := by
    intro f hf
    have hmem : f.name ∈ def'.fields.map FieldDef.name := by
      rw [← hall.map_name]
      exact List.mem_map_of_mem hf
    obtain ⟨f', hf', heq⟩ := List.mem_map.mp hmem
    exact heq ▸ hd.messageFields def' hdef f' hf'
  intro item hitem
  rcases SourceModule.mem_messageGroups.mp hitem with rfl | rfl | rfl | rfl | rfl
  · exact isName_sizeIdent hm
  · refine ⟨hm, fun field hfield => ?_⟩
    obtain ⟨f, hf, rfl⟩ := List.mem_map.mp hfield
    obtain ⟨r, hr⟩ := hall.exists_ref hf
    exact ⟨isLine_ofField (hfields f hf), hd.isLine_typeExpr hr⟩
  · refine ⟨hm, fun field hfield => ?_⟩
    obtain ⟨f, hf, rfl⟩ := List.mem_map.mp hfield
    obtain ⟨r, hr⟩ := hall.exists_ref hf
    exact ⟨isLine_ofField (hfields f hf), hd.isLine_zeroExpr hr⟩
  · refine ⟨hm, fun arm harm => ?_⟩
    obtain ⟨f, hf, harm⟩ := List.mem_filterMap.mp harm
    exact Arm.isLine_ofField? (hfields f (MessageType.mem_sortedFields.mp hf)) harm
  · refine ⟨hm, isName_sizeIdent hm, fun field hfield => ?_⟩
    obtain ⟨f, hf, rfl⟩ := List.mem_map.mp hfield
    obtain ⟨r, hr⟩ := hall.exists_ref (MessageType.mem_sortedFields.mp hf)
    exact hd.formatExpr hr

/-- All items of the module of a schema are legible. -/
theorem legible_items (hd : d.Named) (hcompile : (compile d).value = .ok schema)
    (codecPath : String) :
    ∀ item ∈ (SourceModule.ofSchema schema codecPath).items, Legible item := by
  obtain ⟨-, hlists, -⟩ := (compile_decides d).1 schema hcompile
  intro item hitem
  rcases SourceModule.mem_items.mp hitem with ⟨c, hc, rfl⟩ | ⟨a, ha, rfl⟩ | ⟨e, he, hitem⟩ |
    ⟨m, hm, hitem⟩
  · rw [(compile_constants hcompile).2] at hc
    exact Identifier.isName_upperSnakeCase (hd.constants c hc)
  · obtain ⟨def', hdef, hname, htarget⟩ := exists_partner hlists.aliases ha
    exact ⟨hname ▸ hd.aliases def' hdef, hd.isLine_typeExpr htarget⟩
  · rw [hlists.enums] at he
    obtain ⟨def', hdef, rfl⟩ := List.mem_map.mp he
    exact legible_enum hd hdef item hitem
  · obtain ⟨def', hdef, hname, hall⟩ := exists_partner hlists.messages hm
    exact legible_message hd hdef hname hall item hitem

end Schema

end Bitwire
