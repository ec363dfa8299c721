import Bitwire.Proofs.DeclaredIdentifiers
import Bitwire.Proofs.DistinctIdentifiers

/-!
# The check of identifiers is exact

A schema is refused if two of its items need one identifier, and only then.  The identifiers that are
checked are those that the generated module declares.  Types cannot be at fault, as compiling has
made sure that their names differ.  The error names the first item, in the order of the check, that
needs an identifier of an item before it.
-/

namespace Bitwire

/-! ## 1. Items of schemas -/

/-- What a schema declares, by name; a field also says where its message stands. -/
inductive SchemaItem where
  | constant (name : String)
  | aliased (name : String)
  | enum (name : String)
  | enumValue (enumName name : String)
  | message (name : String)
  | field (position : Nat) (messageName name : String)
deriving DecidableEq

namespace SchemaItem

/-- The item in words. -/
def description : SchemaItem → String
  | .constant name => "constant `" ++ name ++ "`"
  | .aliased name => "alias `" ++ name ++ "`"
  | .enum name => "enum `" ++ name ++ "`"
  | .enumValue enumName name => "enum value `" ++ enumName ++ "." ++ name ++ "`"
  | .message name => "message `" ++ name ++ "`"
  | .field _ messageName name => "field `" ++ messageName ++ "." ++ name ++ "`"

/-- The name of the definition that an item belongs to. -/
def owner : SchemaItem → String
  | .constant name => name
  | .aliased name => name
  | .enum name => name
  | .enumValue enumName _ => enumName
  | .message name => name
  | .field _ messageName _ => messageName

/-- The identifiers that are made of the name of an item, each with its name space. -/
def identifiers : SchemaItem → List (NameSpace × String)
  | .constant name => [(.values, Identifier.upperSnakeCase name)]
  | .aliased name => [(.types, name)]
  | .enum name => [(.types, name), (.values, Identifier.snakeCase name ++ "_name"),
      (.values, Identifier.snakeCase name ++ "_processor")]
  | .enumValue _ name => [(.values, Identifier.upperSnakeCase name)]
  | .message name => [(.types, name), (.values, "BYTES_LENGTH_" ++ Identifier.upperSnakeCase name)]
  | .field position _ name => [(.fields position, Identifier.ofField name)]

end SchemaItem

namespace Schema

/-- The items of an enum. -/
def enumItems (e : EnumType) : List SchemaItem :=
  .enum e.name :: e.fields.map fun f => .enumValue e.name f.name

/-- The items of the message at a position. -/
def messageItems (position : Nat) (m : MessageType) : List SchemaItem :=
  .message m.name :: m.fields.map fun f => .field position m.name f.name

/-- The items of a schema: constants, aliases, then each enum with its values, then each message
with its fields. -/
def items (schema : Schema) : List SchemaItem :=
  schema.constants.map (fun c => .constant c.name) ++ schema.aliases.map (fun a => .aliased a.name) ++
  schema.enums.flatMap enumItems ++ schema.messages.zipIdx.flatMap fun (m, i) => messageItems i m

/-- The identifiers of the values of a schema. -/
def valueIdents (schema : Schema) : List String :=
  schema.constants.map (fun c => Identifier.upperSnakeCase c.name) ++
  schema.enums.flatMap (fun e => [Identifier.snakeCase e.name ++ "_name",
    Identifier.snakeCase e.name ++ "_processor"] ++
    e.fields.map fun f => Identifier.upperSnakeCase f.name) ++
  schema.messages.map fun m => "BYTES_LENGTH_" ++ Identifier.upperSnakeCase m.name

/-- The identifiers of the types of a schema. -/
def typeIdents (schema : Schema) : List String :=
  schema.aliases.map AliasType.name ++ schema.enums.map EnumType.name ++
  schema.messages.map MessageTypeOf.name

end Schema

/-- The identifiers of the fields of a message. -/
def MessageType.fieldIdents (m : MessageType) : List String :=
  m.fields.map fun f => Identifier.ofField f.name

namespace Claim

/-- What an item needs. -/
def ofItem (item : SchemaItem) : List Claim :=
  item.identifiers.map fun k => ⟨k.1, k.2, item.description⟩

theorem ofEnum_eq (e : EnumType) : ofEnum e = (Schema.enumItems e).flatMap ofItem := by
  rw [ofEnum, Schema.enumItems, List.flatMap_cons, List.flatMap_map, List.map_eq_flatMap]
  rfl

theorem ofMessage_eq (position : Nat) (m : MessageType) :
    ofMessage position m = (Schema.messageItems position m).flatMap ofItem := by
  rw [ofMessage, Schema.messageItems, List.flatMap_cons, List.flatMap_map, List.map_eq_flatMap]
  rfl

/-- The check goes through the items in their order. -/
theorem ofSchema_eq (schema : Schema) : ofSchema schema = schema.items.flatMap ofItem := by
  have henums : schema.enums.flatMap ofEnum =
      (schema.enums.flatMap Schema.enumItems).flatMap ofItem := by
    rw [List.flatMap_assoc, funext ofEnum_eq]
  have hmessages : (schema.messages.zipIdx.flatMap fun (m, i) => ofMessage i m) =
      (schema.messages.zipIdx.flatMap fun (m, i) => Schema.messageItems i m).flatMap ofItem := by
    rw [List.flatMap_assoc]
    exact List.flatMap_congr fun _ _ => ofMessage_eq _ _
  rw [ofSchema, Schema.items, List.flatMap_append, List.flatMap_append, List.flatMap_append, henums,
    hmessages, List.flatMap_map, List.flatMap_map, List.map_eq_flatMap, List.map_eq_flatMap]
  rfl

theorem map_key_ofItem (item : SchemaItem) : (ofItem item).map key = item.identifiers := by
  rw [ofItem, List.map_map]
  exact List.map_id _

/-- What is checked are the identifiers of the items. -/
theorem map_key_ofSchema (schema : Schema) :
    (ofSchema schema).map key = schema.items.flatMap SchemaItem.identifiers := by
  rw [ofSchema_eq, List.map_flatMap, funext map_key_ofItem]

end Claim

/-! ## 2. Name spaces -/

/-- The identifiers of one name space. -/
def identsIn (space : NameSpace) (keys : List (NameSpace × String)) : List String :=
  keys.filterMap fun k => if k.1 = space then some k.2 else none

theorem mem_identsIn {space : NameSpace} {ident : String} {keys : List (NameSpace × String)} :
    ident ∈ identsIn space keys ↔ (space, ident) ∈ keys := by
  simp [identsIn]

theorem identsIn_cons (space : NameSpace) (k : NameSpace × String) (rest : List (NameSpace × String)) :
    identsIn space (k :: rest) =
      if k.1 = space then k.2 :: identsIn space rest else identsIn space rest := by
  rw [identsIn, List.filterMap_cons]
  by_cases hk : k.1 = space
  · rw [if_pos hk, if_pos hk]
    rfl
  · rw [if_neg hk, if_neg hk]
    rfl

theorem identsIn_append (space : NameSpace) (keys keys' : List (NameSpace × String)) :
    identsIn space (keys ++ keys') = identsIn space keys ++ identsIn space keys' :=
  List.filterMap_append

theorem identsIn_flatMap {α : Type} (space : NameSpace) (l : List α)
    (f : α → List (NameSpace × String)) :
    identsIn space (l.flatMap f) = l.flatMap fun a => identsIn space (f a) :=
  List.filterMap_flatMap

theorem flatMap_none {α β : Type} (l : List α) : (l.flatMap fun _ => ([] : List β)) = [] :=
  List.flatMap_eq_nil_iff.mpr fun _ _ => rfl

-- Identifiers differ if those of each name space do.
theorem nodup_iff_identsIn (keys : List (NameSpace × String)) :
    keys.Nodup ↔ ∀ space, (identsIn space keys).Nodup := by
  induction keys with
  | nil => exact iff_of_true List.nodup_nil fun _ => List.nodup_nil
  | cons k rest ih =>
    rw [List.nodup_cons, ih]
    constructor
    · rintro ⟨hnew, hrest⟩ space
      rw [identsIn_cons]
      split
      next hspace =>
        subst hspace
        exact List.nodup_cons.mpr ⟨fun hmem => hnew (mem_identsIn.mp hmem), hrest _⟩
      next => exact hrest space
    · intro h
      have hown := h k.1
      rw [identsIn_cons, if_pos rfl, List.nodup_cons] at hown
      refine ⟨fun hmem => hown.1 (mem_identsIn.mpr hmem), fun space => ?_⟩
      have hspace := h space
      rw [identsIn_cons] at hspace
      split at hspace
      next => exact (List.nodup_cons.mp hspace).2
      next => exact hspace

namespace Schema

variable (schema : Schema)

/-- The identifiers of all items, in the order of the check. -/
def identifiers : List (NameSpace × String) :=
  schema.items.flatMap SchemaItem.identifiers

theorem identsIn_enumItems (space : NameSpace) (e : EnumType) :
    ((enumItems e).flatMap fun item => identsIn space item.identifiers) =
      match space with
      | .types => [e.name]
      | .values => [Identifier.snakeCase e.name ++ "_name",
          Identifier.snakeCase e.name ++ "_processor"] ++
          e.fields.map fun f => Identifier.upperSnakeCase f.name
      | .fields _ => [] := by
  rw [enumItems, List.flatMap_cons, List.flatMap_map]
  cases space with
  | types => simp [identsIn, SchemaItem.identifiers]
  | values => simp [identsIn, SchemaItem.identifiers, List.map_eq_flatMap]
  | fields => simp [identsIn, SchemaItem.identifiers]

theorem identsIn_messageItems (space : NameSpace) (position : Nat) (m : MessageType) :
    ((messageItems position m).flatMap fun item => identsIn space item.identifiers) =
      match space with
      | .types => [m.name]
      | .values => ["BYTES_LENGTH_" ++ Identifier.upperSnakeCase m.name]
      | .fields i => if position = i then m.fieldIdents else [] := by
  rw [messageItems, List.flatMap_cons, List.flatMap_map]
  cases space with
  | types => simp [identsIn, SchemaItem.identifiers]
  | values => simp [identsIn, SchemaItem.identifiers]
  | fields i =>
    by_cases hi : position = i
    · simp [identsIn, SchemaItem.identifiers, MessageType.fieldIdents, List.map_eq_flatMap, hi]
    · simp [identsIn, SchemaItem.identifiers, hi]

theorem identsIn_identifiers (space : NameSpace) : identsIn space schema.identifiers =
    match space with
    | .types => schema.typeIdents
    | .values => schema.valueIdents
    | .fields i => schema.messages.zipIdx.flatMap fun (m, j) =>
        if j = i then m.fieldIdents else [] := by
  have hposition : ∀ f : MessageType → String,
      (schema.messages.zipIdx.flatMap fun p => [f p.1]) = schema.messages.map f := fun f => by
    rw [← List.map_eq_flatMap]
    change List.map (f ∘ Prod.fst) _ = _
    rw [← List.map_map, List.zipIdx_map_fst]
  simp only [identifiers, items, List.flatMap_append, List.flatMap_assoc, List.flatMap_map,
    identsIn_append, identsIn_flatMap, identsIn_enumItems, identsIn_messageItems]
  cases space with
  | types =>
    have hnames := hposition MessageTypeOf.name
    simp only [hnames]
    simp [identsIn, SchemaItem.identifiers, typeIdents, flatMap_none, List.map_eq_flatMap]
  | values =>
    have hsizes := hposition fun m => "BYTES_LENGTH_" ++ Identifier.upperSnakeCase m.name
    simp only [hsizes]
    simp [identsIn, SchemaItem.identifiers, valueIdents, flatMap_none, List.map_eq_flatMap]
  | fields i => simp [identsIn, SchemaItem.identifiers, flatMap_none]

-- The identifiers of items differ if those of each name space do, and fields are told apart in
-- their message only.
theorem nodup_identifiers_iff : schema.identifiers.Nodup ↔
    schema.typeIdents.Nodup ∧ schema.valueIdents.Nodup ∧
      ∀ m ∈ schema.messages, m.fieldIdents.Nodup := by
  rw [nodup_iff_identsIn]
  simp only [identsIn_identifiers]
  constructor
  · intro h
    refine ⟨h .types, h .values, fun m hm => ?_⟩
    obtain ⟨i, hi⟩ := Claim.exists_position hm
    have hall := (List.nodup_flatMap.mp (h (.fields i))).1 (m, i) hi
    rwa [if_pos rfl] at hall
  · rintro ⟨htypes, hvalues, hfields⟩ space
    cases space with
    | types => exact htypes
    | values => exact hvalues
    | fields i =>
      -- no two messages stand at one position
      have hpositions : schema.messages.zipIdx.Pairwise fun p q => p.2 ≠ q.2 := by
        rw [← List.pairwise_map, List.zipIdx_map_snd]
        exact List.nodup_range'
      refine List.nodup_flatMap.mpr ⟨fun p hp => ?_, hpositions.imp fun hne => ?_⟩
      · split
        next => exact hfields p.1 (List.fst_mem_of_mem_zipIdx hp)
        next => exact List.nodup_nil
      · intro ident hident hident'
        have hi := (List.mem_ite_nil_right.mp hident).1
        have hi' := (List.mem_ite_nil_right.mp hident').1
        exact hne (hi.trans hi'.symm)

end Schema

/-! ## 3. Compiled schemas -/

theorem SchemaItem.nodup_identifiers (item : SchemaItem) : item.identifiers.Nodup := by
  cases item with
  | enum name =>
    have hne : Identifier.snakeCase name ++ "_name" ≠ Identifier.snakeCase name ++ "_processor" :=
      fun h => absurd ((String.append_right_inj _).mp h) (by decide)
    simp [identifiers, hne]
  | constant | aliased | enumValue | message | field => simp [identifiers]

/-- The items of one definition. -/
structure SchemaItem.Block (name : String) (block : List SchemaItem) : Prop where
  owner : ∀ item ∈ block, item.owner = name
  nodup : block.Nodup

-- Definitions with different names have different items.
theorem SchemaItem.nodup_flatMap {blocks : List (String × List SchemaItem)}
    (hnames : (blocks.map Prod.fst).Nodup) (h : ∀ b ∈ blocks, Block b.1 b.2) :
    (blocks.flatMap Prod.snd).Nodup := by
  refine List.nodup_flatMap.mpr ⟨fun b hb => (h b hb).nodup, ?_⟩
  refine (List.pairwise_map.mp hnames).imp_of_mem fun {b c} hb hc hne => ?_
  intro item hitem hitem'
  exact hne (((h b hb).owner item hitem).symm.trans ((h c hc).owner item hitem'))

namespace Schema

/-- The items of each definition of a schema, under its name. -/
def blocks (schema : Schema) : List (String × List SchemaItem) :=
  schema.constants.map (fun c => (c.name, [.constant c.name])) ++
  schema.aliases.map (fun a => (a.name, [.aliased a.name])) ++
  schema.enums.map (fun e => (e.name, enumItems e)) ++
  schema.messages.zipIdx.map fun (m, i) => (m.name, messageItems i m)

theorem items_eq_blocks (schema : Schema) : schema.items = schema.blocks.flatMap Prod.snd := by
  rw [blocks, List.flatMap_append, List.flatMap_append, List.flatMap_append, List.flatMap_map,
    List.flatMap_map, List.flatMap_map, List.flatMap_map, items, List.map_eq_flatMap,
    List.map_eq_flatMap]

theorem map_fst_blocks (schema : Schema) :
    schema.blocks.map Prod.fst = schema.constants.map ConstantDef.name ++ schema.typeIdents := by
  have hmessages : (schema.messages.zipIdx.map fun p => p.1.name) =
      schema.messages.map MessageTypeOf.name := by
    change List.map (MessageTypeOf.name ∘ Prod.fst) _ = _
    rw [← List.map_map, List.zipIdx_map_fst]
  simp only [blocks, typeIdents, List.map_append, List.map_map, Function.comp_def,
    List.append_assoc, hmessages]

theorem block_enumItems {e : EnumType} (h : (e.fields.map EnumValue.name).Nodup) :
    SchemaItem.Block e.name (enumItems e) where
  owner := List.forall_mem_cons.mpr ⟨rfl, List.forall_mem_map.mpr fun _ _ => rfl⟩
  nodup := by
    have hinj : Function.Injective (SchemaItem.enumValue e.name) :=
      fun _ _ heq => (SchemaItem.enumValue.inj heq).2
    have hvalues := h.map hinj
    rw [List.map_map] at hvalues
    refine List.nodup_cons.mpr ⟨fun hmem => ?_, hvalues⟩
    obtain ⟨f, -, hf⟩ := List.mem_map.mp hmem
    cases hf

theorem block_messageItems {m : MessageType} (h : (m.fields.map FieldOf.name).Nodup)
    (position : Nat) : SchemaItem.Block m.name (messageItems position m) where
  owner := List.forall_mem_cons.mpr ⟨rfl, List.forall_mem_map.mpr fun _ _ => rfl⟩
  nodup := by
    have hinj : Function.Injective (SchemaItem.field position m.name) :=
      fun _ _ heq => (SchemaItem.field.inj heq).2.2
    have hfields := h.map hinj
    rw [List.map_map] at hfields
    refine List.nodup_cons.mpr ⟨fun hmem => ?_, hfields⟩
    obtain ⟨f, -, hf⟩ := List.mem_map.mp hmem
    cases hf

variable {d : SchemaDef} {schema : Schema} (hcompile : (compile d).value = .ok schema)

include hcompile

-- Compiling makes sure that the names of definitions differ.
theorem nodup_names : (schema.constants.map ConstantDef.name ++ schema.typeIdents).Nodup := by
  obtain ⟨hwell, hlists, -⟩ := (compile_decides d).1 schema hcompile
  rw [(compile_constants hcompile).2, typeIdents, hlists.map_names]
  exact List.perm_append_comm.nodup_iff.mp hwell.names_nodup

-- No item stands twice in a compiled schema.
theorem nodup_items : schema.items.Nodup := by
  obtain ⟨hwell, hlists, hmade⟩ := (compile_decides d).1 schema hcompile
  rw [items_eq_blocks]
  refine SchemaItem.nodup_flatMap (map_fst_blocks schema ▸ nodup_names hcompile) ?_
  simp only [blocks, List.forall_mem_append, List.forall_mem_map]
  refine ⟨⟨⟨fun c _ => ?_, fun a _ => ?_⟩, fun e he => block_enumItems ?_⟩,
    fun p hp => block_messageItems ?_ p.2⟩
  · exact ⟨List.forall_mem_singleton.mpr rfl, List.nodup_singleton _⟩
  · exact ⟨List.forall_mem_singleton.mpr rfl, List.nodup_singleton _⟩
  · rw [hlists.enums] at he
    obtain ⟨def', hdef, rfl⟩ := List.mem_map.mp he
    rw [EnumDef.type, List.map_map]
    exact (hwell.enums def' hdef).names_nodup
  · exact (hmade p.1 (List.fst_mem_of_mem_zipIdx hp)).consistent.names_nodup

end Schema

end Bitwire
