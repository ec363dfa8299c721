import Bitwire.Proofs.ResolvedTypes
import Bitwire.Source.Check

/-!
# Distinct identifiers

The check of identifiers finds a conflict exactly if some identifier is claimed twice in one name
space.  Without a conflict an identifier of a generated module leads back to the one item of the
schema that claimed it.
-/

namespace Bitwire

namespace Claim

/-! ## 1. Conflicts -/

/-- What no two claims may have in common. -/
def key (c : Claim) : NameSpace × String :=
  (c.space, c.ident)

theorem firstConflict?_eq_none_iff (before claims : List Claim) :
    firstConflict? before claims = none ↔
      (claims.map key).Nodup ∧ ∀ c ∈ claims, c.key ∉ before.map key := by
  induction claims generalizing before with
  | nil => exact ⟨fun _ => ⟨List.nodup_nil, List.forall_mem_nil _⟩, fun _ => rfl⟩
  | cons c rest ih =>
    have hfind : before.find? (fun b => b.space == c.space && b.ident == c.ident) = none ↔
        c.key ∉ before.map key := by
      rw [List.find?_eq_none, List.mem_map]
      simp only [key, Prod.mk.injEq, Bool.and_eq_true, beq_iff_eq, not_exists, not_and]
    rw [firstConflict?, List.map_cons, List.nodup_cons, List.forall_mem_cons]
    cases hfound : before.find? fun b => b.space == c.space && b.ident == c.ident with
    | some b =>
      refine ⟨nofun, fun ⟨_, hc, _⟩ => ?_⟩
      rw [hfind.mpr hc] at hfound
      cases hfound
    | none =>
      have hc := hfind.mp hfound
      rw [ih (c :: before), List.map_cons]
      simp only [List.mem_cons, not_or]
      constructor
      · rintro ⟨hnodup, hrest⟩
        refine ⟨⟨fun hmem => ?_, hnodup⟩, hc, fun c' hc' => (hrest c' hc').2⟩
        obtain ⟨c', hc', heq⟩ := List.mem_map.mp hmem
        exact (hrest c' hc').1 heq
      · rintro ⟨⟨hnew, hnodup⟩, -, hrest⟩
        refine ⟨hnodup, fun c' hc' => ⟨fun heq => ?_, hrest c' hc'⟩⟩
        exact hnew (heq ▸ List.mem_map_of_mem hc')

/-- No conflict is found exactly if no identifier is claimed twice in one name space. -/
theorem firstConflict?_nil (claims : List Claim) :
    firstConflict? [] claims = none ↔ (claims.map key).Nodup := by
  rw [firstConflict?_eq_none_iff]
  exact and_iff_left fun c _ => List.not_mem_nil

/-! ## 2. Who claims an identifier -/

-- Where nothing occurs twice in a list of lists, what occurs says in which of them.
theorem eq_of_mem_flatMap {α β : Type} {l : List α} {f : α → List β} (h : (l.flatMap f).Nodup)
    {a b : α} (ha : a ∈ l) (hb : b ∈ l) {x : β} (hxa : x ∈ f a) (hxb : x ∈ f b) : a = b := by
  by_contra hne
  have : Std.Symm (Function.onFun List.Disjoint f) := ⟨fun _ _ h => List.Disjoint.symm h⟩
  exact (List.nodup_flatMap.mp h).2.forall ha hb hne hxa hxb

theorem exists_position {α : Type} {l : List α} {a : α} (h : a ∈ l) : ∃ i, (a, i) ∈ l.zipIdx := by
  obtain ⟨i, hi, rfl⟩ := List.getElem_of_mem h
  exact ⟨i, List.mem_zipIdx_iff_getElem?.mpr (List.getElem?_eq_getElem hi)⟩

section

variable {schema : Schema} (h : firstConflict? [] (ofSchema schema) = none)

include h

theorem nodup_enums : (schema.enums.flatMap fun e => (ofEnum e).map key).Nodup := by
  have hall := (firstConflict?_nil _).mp h
  rw [ofSchema, List.map_append, List.map_append, List.map_flatMap] at hall
  exact (hall.of_append_left).of_append_right

theorem nodup_messages :
    (schema.messages.zipIdx.flatMap fun (m, i) => (ofMessage i m).map key).Nodup := by
  have hall := (firstConflict?_nil _).mp h
  rw [ofSchema, List.map_append, List.map_flatMap] at hall
  exact hall.of_append_right

/-- An enum is known from the function that builds its format. -/
theorem enum_of_function {e e' : EnumType} (he : e ∈ schema.enums) (he' : e' ∈ schema.enums)
    (heq : WireType.enumFunction e.name = WireType.enumFunction e'.name) : e = e' := by
  have hclaim : ∀ e : EnumType, (NameSpace.values, WireType.enumFunction e.name) ∈
      (ofEnum e).map key := fun e => by simp [ofEnum, key]
  have hshared := hclaim e
  rw [heq] at hshared
  exact eq_of_mem_flatMap (nodup_enums h) he he' hshared (hclaim e')

/-- A message is known from the constant that holds its size. -/
theorem message_of_size {m m' : MessageType} (hm : m ∈ schema.messages)
    (hm' : m' ∈ schema.messages)
    (heq : SourceModule.sizeIdent m.name = SourceModule.sizeIdent m'.name) : m = m' := by
  have hclaim : ∀ (m : MessageType) i, (NameSpace.values, SourceModule.sizeIdent m.name) ∈
      (ofMessage i m).map key := fun m i => by simp [ofMessage, key]
  obtain ⟨i, hi⟩ := exists_position hm
  obtain ⟨i', hi'⟩ := exists_position hm'
  have hshared := hclaim m i
  rw [heq] at hshared
  exact congrArg Prod.fst
    (eq_of_mem_flatMap (nodup_messages h) hi hi' hshared (hclaim m' i'))

/-- A value of an enum never has the identifier of a size. -/
theorem enumValue_ne_size {e : EnumType} (he : e ∈ schema.enums) {f : EnumValue}
    (hf : f ∈ e.fields) {m : MessageType} (hm : m ∈ schema.messages) :
    Identifier.upperSnakeCase f.name ≠ SourceModule.sizeIdent m.name := by
  have hall := (firstConflict?_nil _).mp h
  rw [ofSchema, List.map_append] at hall
  have hvalue : (NameSpace.values, Identifier.upperSnakeCase f.name) ∈
      (schema.enums.flatMap ofEnum).map key := by
    rw [List.map_flatMap]
    refine List.mem_flatMap.mpr ⟨e, he, ?_⟩
    rw [ofEnum, List.map_append, List.map_map]
    exact List.mem_append_right _ (List.mem_map_of_mem hf)
  have hsize : (NameSpace.values, SourceModule.sizeIdent m.name) ∈
      (schema.messages.zipIdx.flatMap fun (m, i) => ofMessage i m).map key := by
    obtain ⟨i, hi⟩ := exists_position hm
    rw [List.map_flatMap]
    exact List.mem_flatMap.mpr ⟨(m, i), hi, by simp [ofMessage, key]⟩
  intro heq
  rw [heq] at hvalue
  rw [List.map_append] at hall
  exact List.disjoint_of_nodup_append hall (List.mem_append_right _ hvalue) hsize

end

end Claim

/-! ## 3. Definitions -/

/-- The identifiers that an enum needs, each with its name space. -/
def EnumDef.identKeys (e : EnumDef) : List (NameSpace × String) :=
  (NameSpace.types, e.name) :: (NameSpace.values, Identifier.snakeCase e.name ++ "_name") ::
    (NameSpace.values, WireType.enumFunction e.name) ::
    e.fields.map fun f => (NameSpace.values, Identifier.upperSnakeCase f.name)

/-- The identifiers that the message at a position needs. -/
def MessageDef.identKeys (position : Nat) (m : MessageDef) : List (NameSpace × String) :=
  (NameSpace.types, m.name) :: (NameSpace.values, SourceModule.sizeIdent m.name) ::
    m.fields.map fun f => (NameSpace.fields position, Identifier.ofField f.name)

/-- The identifiers that a schema needs. -/
def SchemaDef.identKeys (d : SchemaDef) : List (NameSpace × String) :=
  d.constants.map (fun c => (NameSpace.values, Identifier.upperSnakeCase c.name)) ++
  d.aliases.map (fun a => (NameSpace.types, a.name)) ++
  d.enums.flatMap EnumDef.identKeys ++
  d.messages.zipIdx.flatMap fun (m, i) => m.identKeys i

namespace Claim

/-- What a compiled schema needs is what its definition needs. -/
theorem keys_ofSchema {d : SchemaDef} {schema : Schema}
    (hcompile : (Schema.compile d).value = .ok schema) :
    (ofSchema schema).map key = d.identKeys := by
  obtain ⟨-, hlists, -⟩ := (Schema.compile_decides d).1 schema hcompile
  have haliases : schema.aliases.map AliasType.name = d.aliases.map AliasDef.name :=
    map_eq_of_partners (fun _ _ ha => ha.1) hlists.aliases
  have hmessages : schema.messages.map (fun m => (m.name, m.fields.map FieldOf.name)) =
      d.messages.map fun m => (m.name, m.fields.map FieldDef.name) :=
    map_eq_of_partners (fun _ _ hm => by rw [hm.1, hm.2.map_name]) hlists.messages
  have hzip := congrArg List.zipIdx hmessages
  rw [List.zipIdx_map, List.zipIdx_map] at hzip
  -- what a message needs, from its names
  have hneeds := congrArg (List.flatMap fun ((name, fields), i) =>
    (NameSpace.types, name) :: (NameSpace.values, SourceModule.sizeIdent name) ::
      fields.map fun f => (NameSpace.fields i, Identifier.ofField f)) hzip
  have htypes := congrArg (List.map fun name => (NameSpace.types, name)) haliases
  simp only [List.flatMap_map, List.map_map, Function.comp_def, Prod.map, id] at hneeds htypes
  rw [ofSchema, SchemaDef.identKeys, (Schema.compile_constants hcompile).2, hlists.enums]
  simp only [List.map_append, List.map_map, List.map_flatMap, List.flatMap_map, Function.comp_def,
    key, ofEnum, ofMessage, List.map_cons, List.cons_append, List.nil_append,
    MessageDef.identKeys, EnumDef.type]
  rw [htypes, hneeds]
  rfl

end Claim

/-- Rendering succeeds exactly if no two items of the definition need one identifier in one name
space. -/
theorem Schema.render_ok_iff {d : SchemaDef} {schema : Schema}
    (hcompile : (compile d).value = .ok schema) (codecPath source : String) :
    (schema.render codecPath).value = .ok source ↔
      d.identKeys.Nodup ∧ source = (SourceModule.ofSchema schema codecPath).text := by
  rw [← Claim.keys_ofSchema hcompile, ← Claim.firstConflict?_nil, render]
  split
  next e hconflict =>
    rw [hconflict]
    exact ⟨nofun, nofun⟩
  next hnone =>
    rw [hnone]
    exact ⟨fun h => ⟨rfl, (Except.ok.inj h).symm⟩, fun h => congrArg Except.ok h.2.symm⟩

end Bitwire
