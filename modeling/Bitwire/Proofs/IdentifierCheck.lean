import Bitwire.Proofs.ClaimedIdentifiers
import Bitwire.Proofs.WireFormat

/-!
# Rendering is exact

A compiled schema is rendered if its values and the fields of each of its messages get different
identifiers, and refused otherwise.  What is rendered declares these identifiers and the names of the
types.  A refusal names the first item, in the order of the check, that needs an identifier of an
item before it.
-/

namespace Bitwire

open DeclForm (Declare)

/-! ## 1. The first conflict -/

namespace Claim

-- `before` holds what was claimed in front, the last claim first.
theorem firstConflict?_eq_some {before claims : List Claim} {e : DuplicateIdent}
    (hbefore : (before.map key).Nodup) (h : firstConflict? before claims = some e) :
    ∃ taken c rest, claims = taken ++ c :: rest ∧ ((taken.reverse ++ before).map key).Nodup ∧
      ∃ b ∈ taken.reverse ++ before, b.key = c.key ∧ e = ⟨c.ident, b.source, c.source⟩ := by
  induction claims generalizing before with
  | nil => cases h
  | cons c rest ih =>
    rw [firstConflict?] at h
    split at h
    next b hfound =>
      have hkey := List.find?_some hfound
      rw [Bool.and_eq_true, beq_iff_eq, beq_iff_eq] at hkey
      exact ⟨[], c, rest, rfl, hbefore, b, List.mem_of_find?_eq_some hfound,
        Prod.ext hkey.1 hkey.2, (Option.some.inj h).symm⟩
    next hnone =>
      have hnew : c.key ∉ before.map key := fun hmem => by
        obtain ⟨b, hb, hkey⟩ := List.mem_map.mp hmem
        have hne := List.find?_eq_none.mp hnone b hb
        obtain ⟨hspace, hident⟩ := Prod.mk.inj hkey
        simp [hspace, hident] at hne
      have hnext : ((c :: before).map key).Nodup := List.nodup_cons.mpr ⟨hnew, hbefore⟩
      obtain ⟨taken, c', rest', rfl, hnodup, b, hb, hkey, he⟩ := ih hnext h
      have hreverse : (c :: taken).reverse ++ before = taken.reverse ++ c :: before := by
        rw [List.reverse_cons, List.append_assoc, List.singleton_append]
      exact ⟨c :: taken, c', rest', rfl, hreverse ▸ hnodup, b, hreverse ▸ hb, hkey, he⟩

end Claim

-- What stands in a list of lists stands in one of them.
theorem exists_split_flatMap {α β : Type} {f : α → List β} {l : List α} {taken rest : List β} {b : β}
    (h : l.flatMap f = taken ++ b :: rest) : ∃ earlier a later own others,
      l = earlier ++ a :: later ∧ f a = own ++ b :: others ∧ taken = earlier.flatMap f ++ own := by
  induction l generalizing taken with
  | nil => exact absurd h.symm (List.append_ne_nil_of_right_ne_nil _ (List.cons_ne_nil _ _))
  | cons a l ih =>
    -- what stands behind `f a`
    have hlater : ∀ {taken' : List β}, l.flatMap f = taken' ++ b :: rest →
        taken = f a ++ taken' → ∃ earlier a' later own others, a :: l = earlier ++ a' :: later ∧
          f a' = own ++ b :: others ∧ taken = earlier.flatMap f ++ own := by
      intro taken' hl htaken
      obtain ⟨earlier, a', later, own, others, rfl, ha', rfl⟩ := ih hl
      refine ⟨a :: earlier, a', later, own, others, rfl, ha', ?_⟩
      rw [htaken, List.flatMap_cons, List.append_assoc]
    rw [List.flatMap_cons, List.append_eq_append_iff] at h
    rcases h with ⟨taken', htaken, hl⟩ | ⟨others, ha, hrest⟩
    · exact hlater hl htaken
    · cases others with
      | nil =>
        rw [List.append_nil] at ha
        have hl : l.flatMap f = [] ++ b :: rest := hrest.symm
        exact hlater hl (ha ▸ (List.append_nil _).symm)
      | cons b' others =>
        obtain ⟨rfl, -⟩ := List.cons.inj hrest
        exact ⟨[], a, l, taken, others, rfl, ha, rfl⟩

namespace Schema

/-- The item `second` needs an identifier that the item `first` has taken before it, and nothing in
front of that identifier was needed twice.  The error names both. -/
structure Collision (schema : Schema) (space : NameSpace) (first second : SchemaItem)
    (e : DuplicateIdent) : Prop where
  split : ∃ earlier later own others, schema.items = earlier ++ second :: later ∧ first ∈ earlier ∧
    second.identifiers = own ++ (space, e.ident) :: others ∧
    (earlier.flatMap SchemaItem.identifiers ++ own).Nodup
  different : first ≠ second
  taken : (space, e.ident) ∈ first.identifiers
  first_eq : e.first = first.description
  second_eq : e.second = second.description

/-- What is found is a collision. -/
theorem exists_collision {schema : Schema} {e : DuplicateIdent} (hitems : schema.items.Nodup)
    (h : Claim.firstConflict? [] (Claim.ofSchema schema) = some e) :
    ∃ space first second, schema.Collision space first second e := by
  have hnone : (([] : List Claim).map Claim.key).Nodup := List.nodup_nil
  obtain ⟨taken, c, rest, hsplit, hnodup, b, hb, hkey, rfl⟩ :=
    Claim.firstConflict?_eq_some hnone h
  rw [Claim.ofSchema_eq] at hsplit
  obtain ⟨earlier, second, later, own, others, hschema, hsecond, rfl⟩ :=
    exists_split_flatMap hsplit
  rw [List.append_nil] at hnodup hb
  have hown : second.identifiers = own.map Claim.key ++ c.key :: others.map Claim.key := by
    rw [← Claim.map_key_ofItem, hsecond, List.map_append, List.map_cons]
  have hsource : ∀ {item : SchemaItem} {b : Claim}, b ∈ Claim.ofItem item →
      b.source = item.description := by
    intro item b hb
    obtain ⟨k, -, rfl⟩ := List.mem_map.mp hb
    rfl
  -- one item never needs an identifier twice
  have hitem := second.nodup_identifiers
  rw [hown, List.nodup_middle, List.nodup_cons, List.mem_append, not_or] at hitem
  obtain ⟨first, hfirst, hmem⟩ : ∃ first ∈ earlier, b ∈ Claim.ofItem first := by
    rcases List.mem_append.mp (List.mem_reverse.mp hb) with hb | hb
    · exact List.mem_flatMap.mp hb
    · exact absurd (hkey ▸ List.mem_map_of_mem hb) hitem.1.1
  refine ⟨c.space, first, second, ⟨earlier, later, own.map Claim.key, others.map Claim.key, hschema,
    hfirst, hown, ?_⟩, ?_, ?_, hsource hmem, hsource ?_⟩
  · rw [List.map_reverse, List.nodup_reverse, List.map_append, List.map_flatMap,
      funext Claim.map_key_ofItem] at hnodup
    exact hnodup
  · rintro rfl
    rw [hschema] at hitems
    exact List.disjoint_of_nodup_append hitems hfirst List.mem_cons_self
  · have htaken := List.mem_map_of_mem (f := Claim.key) hmem
    rw [Claim.map_key_ofItem, hkey] at htaken
    exact htaken
  · rw [hsecond]
    exact List.mem_append_right _ List.mem_cons_self

end Schema

/-! ## 2. What a module declares -/

namespace SourceModule

variable (schema : Schema) (codecPath : String)

-- What the items of an enum say, taken together.
theorem flatMap_enumGroups (f : Item → List String) (e : EnumType) :
    (enumGroups e).flatten.flatMap f =
      f (.typeAlias e.name (.named (Identifier.integerType false e.bits))) ++
      (e.fields.flatMap fun v => f (.enumValue (Identifier.upperSnakeCase v.name) e.name v.value)) ++
      f (.enumNames (Identifier.snakeCase e.name ++ "_name") e.name
        (e.fields.map fun v => (Identifier.upperSnakeCase v.name, v.name))) ++
      f (.enumFormat (WireType.enumFunction e.name) e.name e.bits e.extensible
        (e.fields.map EnumValue.value)) := by
  simp [enumGroups, List.flatMap_map]

-- What the items of a module say, taken together.
theorem flatMap_items (f : Item → List String) : (ofSchema schema codecPath).items.flatMap f =
    (schema.constants.flatMap fun c => f (.constant (Identifier.upperSnakeCase c.name) c.value)) ++
    (schema.aliases.flatMap fun a => f (.typeAlias a.name a.target.typeExpr)) ++
    (schema.enums.flatMap fun e => (enumGroups e).flatten.flatMap f) ++
    schema.messages.flatMap fun m => (messageGroups m).flatten.flatMap f := by
  have hgroups : ∀ {α : Type} (l : List α) (groups : α → List (List Item)),
      (l.flatMap groups).flatten.flatMap f = l.flatMap fun a => (groups a).flatten.flatMap f := by
    intro α l groups
    simp only [List.flatten_eq_flatMap, List.flatMap_assoc, id]
  rw [items, ofSchema, List.flatten_append, List.flatten_append, List.flatMap_append,
    List.flatMap_append, hgroups, hgroups]
  simp only [List.flatten_cons, List.flatten_nil, List.append_nil, List.flatMap_append,
    List.flatMap_map]

-- The functions of an enum stand behind its values.
theorem valueIdents_perm : ((ofSchema schema codecPath).items.flatMap fun item =>
    item.valueIdent?.toList).Perm schema.valueIdents := by
  have henum : ∀ e : EnumType, ((enumGroups e).flatten.flatMap fun item =>
      item.valueIdent?.toList).Perm ([Identifier.snakeCase e.name ++ "_name",
        Identifier.snakeCase e.name ++ "_processor"] ++
        e.fields.map fun f => Identifier.upperSnakeCase f.name) := by
    intro e
    rw [flatMap_enumGroups]
    change ((e.fields.flatMap fun v => [Identifier.upperSnakeCase v.name]) ++
      [Identifier.snakeCase e.name ++ "_name"] ++ [WireType.enumFunction e.name]).Perm _
    rw [← List.map_eq_flatMap, List.append_assoc]
    exact List.perm_append_comm
  have haliases : (schema.aliases.flatMap fun a =>
      (Item.typeAlias a.name a.target.typeExpr).valueIdent?.toList) = [] := flatMap_none _
  rw [flatMap_items, Schema.valueIdents, List.map_eq_flatMap, List.map_eq_flatMap, haliases,
    List.append_nil]
  exact (List.Perm.append_left _ (List.Perm.flatMap_left _ fun e _ => henum e)).append_right _

theorem typeIdents_eq : ((ofSchema schema codecPath).items.flatMap fun item =>
    item.typeIdent?.toList) = schema.typeIdents := by
  have henum : ∀ e : EnumType, ((enumGroups e).flatten.flatMap fun item =>
      item.typeIdent?.toList) = [e.name] := by
    intro e
    rw [flatMap_enumGroups]
    change [e.name] ++ (e.fields.flatMap fun _ => []) ++ [] ++ [] = [e.name]
    rw [flatMap_none]
    rfl
  have hconstants : (schema.constants.flatMap fun c =>
      (Item.constant (Identifier.upperSnakeCase c.name) c.value).typeIdent?.toList) = [] :=
    flatMap_none _
  rw [flatMap_items, Schema.typeIdents, List.map_eq_flatMap, List.map_eq_flatMap,
    List.map_eq_flatMap, hconstants, List.nil_append, funext henum]
  rfl

theorem fieldIdents_eq : (ofSchema schema codecPath).items.flatMap Item.fieldIdents =
    schema.messages.flatMap MessageType.fieldIdents := by
  have hconstants : (schema.constants.flatMap fun c =>
      (Item.constant (Identifier.upperSnakeCase c.name) c.value).fieldIdents) = [] := flatMap_none _
  have haliases : (schema.aliases.flatMap fun a =>
      (Item.typeAlias a.name a.target.typeExpr).fieldIdents) = [] := flatMap_none _
  have henums : (schema.enums.flatMap fun e => (enumGroups e).flatten.flatMap Item.fieldIdents) = [] := by
    refine List.flatMap_eq_nil_iff.mpr fun e _ => ?_
    rw [flatMap_enumGroups, List.append_eq_nil_iff, List.append_eq_nil_iff, List.append_eq_nil_iff]
    exact ⟨⟨⟨rfl, flatMap_none _⟩, rfl⟩, rfl⟩
  have hmessage : ∀ m : MessageType,
      (messageGroups m).flatten.flatMap Item.fieldIdents = m.fieldIdents := fun m => by
    simp [messageGroups, Item.fieldIdents, MessageType.fieldIdents]
  rw [flatMap_items, hconstants, haliases, henums, funext hmessage]
  rfl

end SourceModule

/-- What lines declare for a schema: the identifiers of its values and of its types, and in a struct
for each message the identifiers of the fields. -/
structure Schema.DeclaredIn (schema : Schema) (lines : List String) : Prop where
  values : ∃ idents, idents.Perm schema.valueIdents ∧ Declare DeclForm.values idents lines
  types : Declare DeclForm.types schema.typeIdents lines
  fields : Declare DeclForm.fields (schema.messages.flatMap MessageType.fieldIdents) lines
  structs : ∀ m ∈ schema.messages, ∃ block, block <:+: lines ∧
    Declare DeclForm.types [m.name] block ∧ Declare DeclForm.fields m.fieldIdents block

-- The lines of an item stand together.
theorem SourceModule.lines_infix {out : SourceModule} {item : Item} (h : item ∈ out.items) :
    item.lines <:+: out.lines := by
  obtain ⟨group, hgroup, hitem⟩ := List.mem_flatten.mp h
  have hlines : item.lines <:+: group.flatMap Item.lines :=
    List.infix_of_mem_flatten (List.mem_map_of_mem hitem)
  have hblock : groupLines group <:+: out.groups.flatMap groupLines :=
    List.infix_of_mem_flatten (List.mem_map_of_mem hgroup)
  have hin : item.lines <:+: groupLines group := by
    rw [groupLines, if_neg (by simp [List.ne_nil_of_mem hitem])]
    exact hlines.trans (List.prefix_append _ _).isInfix
  exact (hin.trans hblock).trans (List.suffix_append _ _).isInfix

namespace Schema

/-- A module declares what its schema needs. -/
theorem declaredIn_ofSchema (schema : Schema) (codecPath : String) :
    schema.DeclaredIn (SourceModule.ofSchema schema codecPath).lines where
  values := ⟨_, SourceModule.valueIdents_perm schema codecPath,
    SourceModule.declare_lines (by decide) (by decide) Item.declare_values _⟩
  types := by
    rw [← SourceModule.typeIdents_eq schema codecPath]
    exact SourceModule.declare_lines (by decide) (by decide) Item.declare_types _
  fields := by
    rw [← SourceModule.fieldIdents_eq schema codecPath]
    exact SourceModule.declare_lines (by decide) (by decide) Item.declare_fields _
  structs m hm := by
    have hstruct : ∃ item ∈ (SourceModule.messageGroups m).flatten,
        item.typeIdent?.toList = [m.name] ∧ item.fieldIdents = m.fieldIdents := by
      refine ⟨_, List.mem_cons_of_mem _ List.mem_cons_self, rfl, ?_⟩
      rw [Item.fieldIdents, List.map_map]
      rfl
    obtain ⟨item, hitem, htype, hfields⟩ := hstruct
    obtain ⟨group, hgroup, hitem⟩ := List.mem_flatten.mp hitem
    have hmem : group ∈ (SourceModule.ofSchema schema codecPath).groups :=
      List.mem_append_right _ (List.mem_flatMap.mpr ⟨m, hm, hgroup⟩)
    refine ⟨item.lines, SourceModule.lines_infix (List.mem_flatten.mpr ⟨group, hmem, hitem⟩), ?_, ?_⟩
    · exact htype ▸ item.declare_types
    · exact hfields ▸ item.declare_fields

/-! ## 3. Rendering -/

variable {d : SchemaDef} {schema : Schema} {codecPath : String}

-- Names of types are never needed twice.
theorem Collision.space_ne_types {space : NameSpace} {first second : SchemaItem} {e : DuplicateIdent}
    (h : schema.Collision space first second e) (htypes : schema.typeIdents.Nodup) :
    space ≠ .types := by
  rintro rfl
  obtain ⟨earlier, later, own, others, hitems, hfirst, hsecond, -⟩ := h.split
  have hall : (identsIn .types schema.identifiers).Nodup := by
    rw [identsIn_identifiers]
    exact htypes
  rw [identifiers, hitems, List.flatMap_append, identsIn_append] at hall
  have htaken : e.ident ∈ identsIn .types (earlier.flatMap SchemaItem.identifiers) :=
    mem_identsIn.mpr (List.mem_flatMap.mpr ⟨first, hfirst, h.taken⟩)
  refine List.disjoint_of_nodup_append hall htaken (mem_identsIn.mpr ?_)
  refine List.mem_flatMap.mpr ⟨second, List.mem_cons_self, ?_⟩
  rw [hsecond]
  exact List.mem_append_right _ List.mem_cons_self

theorem render_value : (schema.render codecPath).value =
    match Claim.firstConflict? [] (Claim.ofSchema schema) with
    | some e => .error e
    | none => .ok (SourceModule.ofSchema schema codecPath).text := by
  rw [render]
  cases Claim.firstConflict? [] (Claim.ofSchema schema) with
  | some e => rfl
  | none => rfl

/-- A compiled schema is rendered exactly if its values get different identifiers and so do the
fields of each message: the names of its types are different already.  Its source is the text of the
module, the lines of which declare these identifiers and no others.  The error of a schema that is
refused names two different items, the second of them the first in the order of the check that needs
an identifier again. -/
theorem render_exact (hcompile : (compile d).value = .ok schema) (codecPath : String) :
    ((∃ source, (schema.render codecPath).value = .ok source) ↔
      schema.valueIdents.Nodup ∧ ∀ m ∈ schema.messages, m.fieldIdents.Nodup) ∧
    schema.typeIdents.Nodup ∧
    (∀ source, (schema.render codecPath).value = .ok source →
      source = (SourceModule.ofSchema schema codecPath).text ∧
      source = String.join ((SourceModule.ofSchema schema codecPath).lines.map (· ++ "\n"))) ∧
    schema.DeclaredIn (SourceModule.ofSchema schema codecPath).lines ∧
    ∀ e, (schema.render codecPath).value = .error e →
      ∃ space first second, space ≠ .types ∧ schema.Collision space first second e := by
  have htypes : schema.typeIdents.Nodup := (List.nodup_append.mp (nodup_names hcompile)).2.1
  have hnone : Claim.firstConflict? [] (Claim.ofSchema schema) = none ↔
      schema.valueIdents.Nodup ∧ ∀ m ∈ schema.messages, m.fieldIdents.Nodup := by
    rw [Claim.firstConflict?_nil, Claim.map_key_ofSchema]
    exact (nodup_identifiers_iff schema).trans (and_iff_right htypes)
  refine ⟨?_, htypes, fun source hsource => ?_, declaredIn_ofSchema schema codecPath, fun e he => ?_⟩
  · rw [← hnone, render_value]
    cases Claim.firstConflict? [] (Claim.ofSchema schema) with
    | none => exact iff_of_true ⟨_, rfl⟩ rfl
    | some e => exact iff_of_false (fun ⟨source, h⟩ => by cases h) (Option.some_ne_none e)
  · rw [render_value] at hsource
    split at hsource
    next => cases hsource
    next =>
      obtain rfl := Except.ok.inj hsource
      exact ⟨rfl, SourceModule.text_eq _⟩
  · rw [render_value] at he
    split at he
    next e' hconflict =>
      obtain rfl := Except.error.inj he
      obtain ⟨space, first, second, h⟩ := exists_collision (nodup_items hcompile) hconflict
      exact ⟨space, first, second, h.space_ne_types htypes, h⟩
    next => cases he

/-- A message whose size has the identifier of a constant. -/
def clashingSchema : SchemaDef :=
  { constants := [⟨"bytes length hub", .int 2⟩]
    messages := [⟨"Hub", [⟨1, "serialNumber", .uint 16⟩]⟩] }

theorem render_exact_clashing : ∃ schema source clashing e space first second,
    (compile stationSchema).value = .ok schema ∧
    (schema.render SourceModule.usualCodecPath).value = .ok source ∧
    schema.valueIdents.Nodup ∧
    (compile clashingSchema).value = .ok clashing ∧
    (clashing.render SourceModule.usualCodecPath).value = .error e ∧
    e = ⟨"BYTES_LENGTH_HUB", "constant `bytes length hub`", "message `Hub`"⟩ ∧
    space ≠ .types ∧ clashing.Collision space first second e := by
  obtain ⟨schema, m, hschema, -, -⟩ := @exists_message stationSchema "Station" (fun _ => true)
    (by cbv)
  have hsource := (render_ok_iff hschema SourceModule.usualCodecPath _).mpr ⟨by decide +kernel, rfl⟩
  have hclash : ((compile clashingSchema).value.toOption.map fun s =>
      (s.render SourceModule.usualCodecPath).value) = some (.error
        ⟨"BYTES_LENGTH_HUB", "constant `bytes length hub`", "message `Hub`"⟩) := by
    decide +kernel
  obtain ⟨clashing, hclashing, herror⟩ := Option.map_eq_some_iff.mp hclash
  obtain ⟨hvalues, -⟩ := (render_exact hschema SourceModule.usualCodecPath).1.mp ⟨_, hsource⟩
  obtain ⟨space, first, second, hspace, h⟩ := (render_exact (ok_of_toOption hclashing)
    SourceModule.usualCodecPath).2.2.2.2 _ herror
  exact ⟨schema, _, clashing, _, space, first, second, hschema, hsource, hvalues,
    ok_of_toOption hclashing, herror, rfl, hspace, h⟩

end Schema

end Bitwire
