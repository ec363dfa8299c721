import Bitwire.Proofs.RestatedSchemas

/-!
# The order of declarations

Aliases, enums, messages, the fields of a message and the values of an enum may be declared in any
order.  The order decides which fault of a schema is found first, but not whether there is one, and
never what is on the wire.
-/

namespace Bitwire

/-! ## 1. Lists in another order -/

/-- Lists with the same elements in any order, where elements are the same if `R` relates them. -/
def PermUpTo {α : Type} (R : α → α → Prop) (xs ys : List α) : Prop :=
  ∃ zs, xs.Perm zs ∧ List.Forall₂ R zs ys

namespace PermUpTo

variable {α : Type} {R : α → α → Prop} {xs ys : List α}

theorem symm (hR : ∀ x y, R x y → R y x) (h : PermUpTo R xs ys) : PermUpTo R ys xs := by
  obtain ⟨zs, hperm, hall⟩ := h
  -- the order is changed last instead of first
  obtain ⟨ws, hall', hperm'⟩ := List.perm_comp_forall₂ hperm hall
  exact ⟨ws, hperm'.symm, (hall'.imp fun x y => hR x y).flip⟩

theorem exists_right (h : PermUpTo R xs ys) {x : α} (hx : x ∈ xs) : ∃ y ∈ ys, R x y := by
  obtain ⟨zs, hperm, hall⟩ := h
  obtain ⟨i, hi, rfl⟩ := List.getElem_of_mem (hperm.mem_iff.mp hx)
  have hi' : i < ys.length := hall.length_eq ▸ hi
  exact ⟨_, List.getElem_mem hi', hall.get hi hi'⟩

-- What is the same of related elements is the same in both lists, up to the order.
theorem map {β : Type} {f : α → β} (hf : ∀ x y, R x y → f y = f x) (h : PermUpTo R xs ys) :
    (ys.map f).Perm (xs.map f) := by
  obtain ⟨zs, hperm, hall⟩ := h
  have heq : zs.map f = ys.map f := by
    rw [← List.forall₂_eq_eq_eq, List.forall₂_map_left_iff, List.forall₂_map_right_iff]
    exact hall.imp fun x y hxy => (hf x y hxy).symm
  rw [← heq]
  exact (hperm.map f).symm

end PermUpTo

/-! ## 2. Rearranged schemas -/

/-- Message definitions that differ in the order of their fields at most. -/
structure MessageDef.Rearranged (m m' : MessageDef) : Prop where
  name : m'.name = m.name
  fields : m'.fields.Perm m.fields

theorem MessageDef.Rearranged.symm {m m' : MessageDef} (h : m.Rearranged m') : m'.Rearranged m :=
  ⟨h.name.symm, h.fields.symm⟩

namespace SchemaDef

/-- Schema definitions that differ in the order of their aliases, enums and messages, of the fields
of their messages and of the values of their enums at most. -/
structure Rearranged (d d' : SchemaDef) : Prop where
  name : d'.name = d.name
  constants : d'.constants = d.constants
  aliases : d'.aliases.Perm d.aliases
  enums : PermUpTo EnumDef.Rearranged d.enums d'.enums
  messages : PermUpTo MessageDef.Rearranged d.messages d'.messages

namespace Rearranged

variable {d d' : SchemaDef} (h : d.Rearranged d')

include h

theorem symm : d'.Rearranged d where
  name := h.name.symm
  constants := h.constants.symm
  aliases := h.aliases.symm
  enums := h.enums.symm fun _ _ => EnumDef.Rearranged.symm
  messages := h.messages.symm fun _ _ => MessageDef.Rearranged.symm

theorem names_perm : d'.names.Perm d.names := by
  simp only [names, definitions, List.map_append, List.map_map, h.constants]
  refine List.Perm.append_right _ (((h.aliases.map _).append ?_).append ?_)
  · exact h.enums.map fun _ _ he => he.name
  · exact h.messages.map fun _ _ hm => hm.name

-- Rearranging restates a schema, and no name is replaced.
theorem restates (hnames : d.names.Nodup) : d.Restates d' .named where
  names_nodup := h.names_perm.nodup_iff.mpr hnames
  aliased a ha := by
    refine .inr ⟨rfl, ?_⟩
    rw [TypeRef.substitute_named]
    exact h.aliases.mem_iff.mpr ha
  of_alias a ha := ⟨a, h.aliases.mem_iff.mp ha, (TypeRef.substitute_named _).symm⟩
  enum e he := ⟨rfl, h.enums.exists_right he⟩
  of_enum e' he' := by
    obtain ⟨e, he, harranged⟩ := h.symm.enums.exists_right he'
    exact ⟨e, he, harranged.symm⟩
  message m hm := by
    obtain ⟨m', hm', harranged⟩ := h.messages.exists_right hm
    refine ⟨rfl, m', hm', harranged.name, ?_⟩
    rw [FieldDef.map_substitute_named]
    exact harranged.fields
  of_message m' hm' := by
    obtain ⟨m, hm, harranged⟩ := h.symm.messages.exists_right hm'
    refine ⟨m, hm, harranged.name.symm, ?_⟩
    rw [FieldDef.map_substitute_named]
    exact harranged.fields.symm

theorem exists_compiled {schema : Schema} (hschema : (Schema.compile d).value = .ok schema) :
    ∃ schema', (Schema.compile d').value = .ok schema' ∧ schema.SameWire schema' :=
  (h.restates ((Schema.compile_decides d).1 schema hschema).1.names_nodup).exists_sameWire hschema

end Rearranged

end SchemaDef

namespace Schema

/-- The order of declarations does not reach the wire.  Of two schemas that differ in it one compiles
if the other does, and then a name is that of a message in both or in neither, and the message has
one layout and one format, and is encoded and decoded alike. -/
theorem compile_rearranged {d d' : SchemaDef} (h : d.Rearranged d') :
    ((∃ schema, (compile d).value = .ok schema) ↔ ∃ schema', (compile d').value = .ok schema') ∧
    ∀ schema schema', (compile d).value = .ok schema → (compile d').value = .ok schema' →
      schema.SameWire schema' := by
  refine ⟨⟨?_, ?_⟩, fun schema schema' hschema hschema' => ?_⟩
  · rintro ⟨schema, hschema⟩
    obtain ⟨schema', hschema', -⟩ := h.exists_compiled hschema
    exact ⟨schema', hschema'⟩
  · rintro ⟨schema', hschema'⟩
    obtain ⟨schema, hschema, -⟩ := h.symm.exists_compiled hschema'
    exact ⟨schema, hschema⟩
  · obtain ⟨schema'', hcompiled, hsame⟩ := h.exists_compiled hschema
    obtain rfl := Except.ok.inj (hcompiled.symm.trans hschema')
    exact hsame

/-- The weather station declared from the end, with its values and fields in another order. -/
def stationSchemaReversed : SchemaDef where
  name := "weather"
  aliases := [⟨"Temperature", .int 7⟩]
  enums := [{ name := "Wind", bits := 3, fields := [⟨"GUST", 5⟩, ⟨"CALM", 0⟩] }]
  messages := [
    ⟨"Station", [⟨1, "wind", .named "Wind"⟩, ⟨4, "readings", .array (.named "Reading") 2⟩,
      ⟨7, "total", .uint 33⟩]⟩,
    ⟨"Reading", [⟨1, "temperature", .named "Temperature"⟩, ⟨2, "valid", .bool⟩]⟩]

theorem stationSchema_rearranged : stationSchema.Rearranged stationSchemaReversed where
  name := rfl
  constants := rfl
  aliases := List.Perm.refl _
  enums := ⟨stationSchema.enums, List.Perm.refl _, .cons ⟨rfl, rfl, rfl, by decide⟩ .nil⟩
  messages := ⟨stationSchema.messages.reverse, (List.reverse_perm _).symm,
    .cons ⟨rfl, by decide⟩ (.cons ⟨rfl, by decide⟩ .nil)⟩

theorem compile_rearranged_station : ∃ schema schema' m m',
    (compile stationSchema).value = .ok schema ∧ (compile stationSchemaReversed).value = .ok schema' ∧
      schema.message? "Station" = some m ∧ schema'.message? "Station" = some m' ∧ m.SameWire m' ∧
      m.fields.map FieldOf.number = [7, 4, 1] ∧ m'.fields.map FieldOf.number = [1, 4, 7] ∧
      (m'.encode stationRecord).value = .ok [237, 75, 4, 0, 0, 0, 0] := by
  obtain ⟨schema, m, hschema, hm, hfields⟩ := @exists_message? stationSchema "Station"
    (fun m => m.fields.map FieldOf.number == [7, 4, 1]) (by cbv)
  obtain ⟨schema', m', hschema', hm', hp⟩ := @exists_message? stationSchemaReversed "Station"
    (fun m => m.fields.map FieldOf.number == [1, 4, 7] &&
      (m.encode stationRecord).value.toOption == some [237, 75, 4, 0, 0, 0, 0]) (by cbv)
  obtain ⟨hfields', hencode⟩ := Bool.and_eq_true_iff.mp hp
  have hsame := (compile_rearranged stationSchema_rearranged).2 schema schema' hschema hschema' "Station"
  rw [hm, hm'] at hsame
  cases hsame with
  | some hsame =>
    exact ⟨schema, schema', m, m', hschema, hschema', hm, hm', hsame, eq_of_beq hfields,
      eq_of_beq hfields', ok_of_toOption (eq_of_beq hencode)⟩

end Schema

end Bitwire
