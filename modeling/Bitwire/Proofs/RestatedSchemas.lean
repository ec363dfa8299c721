import Bitwire.Proofs.SameWire

/-!
# Schemas written in another way

A schema can be restated: its definitions in another order, its enums and messages rearranged, and
the names of aliases replaced by what they stand for.  The restated schema compiles if the first one
does, and then its messages have the wire format that they had.
-/

namespace Bitwire

/-! ## 1. Substitution -/

namespace TypeRef

/-- A type with every name replaced, at any array depth. -/
def substitute (σ : String → TypeRef) : TypeRef → TypeRef
  | .named n => σ n
  | .array element capacity => .array (element.substitute σ) capacity
  | r => r

@[simp] theorem substitute_named (r : TypeRef) : r.substitute .named = r := by
  induction r with
  | bool | int | uint | named => rfl
  | array element capacity ih => rw [substitute, ih]

theorem substitute_congr {σ τ : String → TypeRef} {r : TypeRef} (h : ∀ n ∈ r.names, σ n = τ n) :
    r.substitute σ = r.substitute τ := by
  induction r with
  | bool | int | uint => rfl
  | named n => exact h n (List.mem_singleton_self n)
  | array element capacity ih => rw [substitute, substitute, ih h]

end TypeRef

/-- A field with every name in its type replaced. -/
def FieldDef.substitute (σ : String → TypeRef) (f : FieldDef) : FieldDef :=
  { f with type := f.type.substitute σ }

theorem FieldDef.map_substitute_named (fields : List FieldDef) :
    fields.map (substitute .named) = fields := by
  have hself : substitute .named = id := funext fun f => by
    rw [substitute, TypeRef.substitute_named]
    rfl
  rw [hself, List.map_id]

namespace SchemaDef

/-! ## 2. Restated schemas -/

/-- The second schema is the first one with names replaced, and its definitions, the fields of its
messages and the values of its enums in any order.  An alias may go if its name is replaced by what
it stands for; enums and messages keep their names. -/
structure Restates (d d' : SchemaDef) (σ : String → TypeRef) : Prop where
  names_nodup : d'.names.Nodup
  aliased : ∀ a ∈ d.aliases, σ a.name = a.target.substitute σ ∨
    σ a.name = .named a.name ∧ ⟨a.name, a.target.substitute σ⟩ ∈ d'.aliases
  of_alias : ∀ a' ∈ d'.aliases, ∃ a ∈ d.aliases, a'.target = a.target.substitute σ
  enum : ∀ e ∈ d.enums, σ e.name = .named e.name ∧ ∃ e' ∈ d'.enums, e.Rearranged e'
  of_enum : ∀ e' ∈ d'.enums, ∃ e ∈ d.enums, e.Rearranged e'
  message : ∀ m ∈ d.messages, σ m.name = .named m.name ∧ ∃ m' ∈ d'.messages,
    m'.name = m.name ∧ m'.fields.Perm (m.fields.map (FieldDef.substitute σ))
  of_message : ∀ m' ∈ d'.messages, ∃ m ∈ d.messages,
    m'.name = m.name ∧ m'.fields.Perm (m.fields.map (FieldDef.substitute σ))

variable {d d' : SchemaDef} {σ : String → TypeRef}

/-! ## 3. Types -/

mutual

/-- A restated type stands for a type of the same width and format. -/
theorem Denotes.restated (h : d.Restates d' σ) {r : TypeRef} {t : WireType} :
    d.Denotes r t → t.Made → ∃ t', d'.Denotes (r.substitute σ) t' ∧ t'.Made ∧
      t'.width = t.width ∧ t'.format = t.format
  | .bool, ht => ⟨_, .bool, ht, rfl, rfl⟩
  | .int bits, ht => ⟨_, .int bits, ht, rfl, rfl⟩
  | .uint bits, ht => ⟨_, .uint bits, ht, rfl, rfl⟩
  | .array capacity hr, ht => by
    obtain ⟨t', hr', hmade, hwidth, hformat⟩ := Denotes.restated h hr ht.1
    have hcapacity := (WireType.makeArray_ok ht.2).1
    refine ⟨_, .array capacity hr', ⟨hmade, WireType.makeArray_eq_ok hcapacity⟩, ?_, ?_⟩
    · rw [WireType.width, WireType.width, hwidth]
    · rw [WireType.format, WireType.format, hformat]
  | @Denotes.aliased _ a _ ha hr, ht => by
    obtain ⟨t', hr', hmade, hwidth, hformat⟩ := Denotes.restated h hr ht
    change ∃ t', d'.Denotes (σ a.name) t' ∧ _
    rcases h.aliased a (aliasDef_mem.mp ha) with hσ | ⟨hσ, ha'⟩
    · rw [hσ]
      exact ⟨t', hr', hmade, hwidth, hformat⟩
    · rw [hσ]
      have hdenotes : d'.Denotes (.named a.name) (.aliased a.name t') :=
        Denotes.aliased (a := ⟨a.name, a.target.substitute σ⟩) (aliasDef_mem.mpr ha') hr'
      exact ⟨_, hdenotes, hmade, hwidth, hformat⟩
  | @Denotes.enum _ e he, ht => by
    obtain ⟨hσ, e', he', harranged⟩ := h.enum e (enumDef_mem.mp he)
    have hwell := harranged.wellFormed (e.make_ok_iff.mp ht)
    have hdenotes := Denotes.enum (enumDef_mem.mpr he')
    rw [harranged.name, ← hσ] at hdenotes
    refine ⟨_, hdenotes, e'.make_ok_iff.mpr hwell, ?_, ?_⟩
    · exact congrArg UInt8.toNat harranged.bits
    · exact congrArg Format.enum harranged.format
  | @Denotes.message _ m type hm hname hr, ht => by
    have hmade : type.Made := ht
    obtain ⟨types, hall, htypes, hwire⟩ := DenoteAll.restated h hr fun _ => hmade.field
    obtain ⟨hσ, m', hm', hname', hperm⟩ := h.message m (messageDef_mem.mp hm)
    -- the restated declaration has the fields in an order of its own
    obtain ⟨types', hall', hperm'⟩ := hall.of_perm hperm
    obtain ⟨type', htype', rfl, hmade', hformat⟩ := hmade.exists_rearranged
      (fun g hg => htypes g (hperm'.mem_iff.mp hg)) (hwire ▸ hperm'.map FieldOf.wire)
    have hdenotes := Denotes.message (messageDef_mem.mpr hm')
      (htype'.trans (hname.trans hname'.symm)) hall'
    rw [hname', ← hσ] at hdenotes
    refine ⟨_, hdenotes, hmade', ?_, congrArg Format.message hformat⟩
    exact congrArg Layout.totalBits (hmade.sameWire hmade' hformat).layout

theorem DenoteAll.restated (h : d.Restates d' σ) {fields : List FieldDef} {types : List Field} :
    d.DenoteAll fields types → (∀ g ∈ types, g.type.Made) →
      ∃ types', d'.DenoteAll (fields.map (FieldDef.substitute σ)) types' ∧
        (∀ g ∈ types', g.type.Made) ∧ types'.map FieldOf.wire = types.map FieldOf.wire
  | .nil, _ => ⟨[], .nil, fun _ hg => absurd hg List.not_mem_nil, rfl⟩
  | @DenoteAll.cons _ f g _ _ hnumber hname hf hrest, ht => by
    obtain ⟨hg, htypes⟩ := List.forall_mem_cons.mp ht
    obtain ⟨t', hf', hmade, hwidth, hformat⟩ := Denotes.restated h hf hg
    obtain ⟨types', hrest', hmades, hwire⟩ := DenoteAll.restated h hrest htypes
    refine ⟨⟨g.number, g.name, t'⟩ :: types', .cons hnumber hname hf' hrest',
      List.forall_mem_cons.mpr ⟨hmade, hmades⟩, ?_⟩
    rw [List.map_cons, List.map_cons, hwire, FieldOf.wire, FieldOf.wire, hwidth, hformat]

end

end SchemaDef

/-! ## 4. Compiled schemas -/

namespace Schema

variable {d : SchemaDef} {schema : Schema}

-- A message that is found is the made one that its name stands for.
theorem denotes_of_message? (hschema : (compile d).value = .ok schema) {name : String}
    {m : MessageType} (hm : schema.message? name = some m) :
    d.Denotes (.named name) (.message m) ∧ m.Made := by
  have hmem := List.mem_of_find?_eq_some hm
  have hfound := List.find?_some (p := fun m : MessageType => m.name == name) hm
  obtain ⟨-, hlists, hmade⟩ := (compile_decides d).1 schema hschema
  obtain ⟨def', hdef, hname, hall⟩ := exists_partner hlists.messages hmem
  have hdenotes := SchemaDef.Denotes.message (SchemaDef.messageDef_mem.mpr hdef) hname hall
  have hsame : def'.name = name := hname.symm.trans (eq_of_beq hfound)
  exact ⟨hsame ▸ hdenotes, hmade _ hmem⟩

end Schema

namespace SchemaDef.Restates

open Schema (compile)

variable {d d' : SchemaDef} {σ : String → TypeRef} (h : d.Restates d' σ)

include h

/-- A schema stays well formed when it is restated. -/
theorem wellFormed (hwell : d.WellFormed) : d'.WellFormed := by
  refine wellFormed_of_denotes h.names_nodup (fun e' he' => ?_) (fun a' ha' => ?_) fun m' hm' => ?_
  · obtain ⟨e, he, harranged⟩ := h.of_enum e' he'
    exact harranged.wellFormed (hwell.enums e he)
  · obtain ⟨a, ha, htarget⟩ := h.of_alias a' ha'
    obtain ⟨t, ht, hmade⟩ := hwell.exists_denoted ⟨_, aliasDef_mem.mpr ha, rfl⟩
    obtain ⟨target, rfl, hr⟩ := ht.of_alias hwell.names_nodup ha
    obtain ⟨t', hr', hmade', -⟩ := hr.restated h hmade
    exact ⟨t', htarget ▸ hr', hmade'⟩
  · obtain ⟨m, hm, hname, -⟩ := h.of_message m' hm'
    have hdeclared : d.Declares m.name := ⟨_, messageDef_mem.mpr hm, rfl⟩
    obtain ⟨t, ht, hmade⟩ := hwell.exists_denoted hdeclared
    obtain ⟨t', ht', hmade', -⟩ := ht.restated h hmade
    rw [TypeRef.substitute, (h.message m hm).1, ← hname] at ht'
    obtain ⟨type, rfl, -, hall⟩ := ht'.of_message h.names_nodup hm'
    exact ⟨type, hall, hmade'⟩

/-- The messages of a schema keep their wire format when it is restated. -/
theorem sameWire {schema schema' : Schema} (hschema : (compile d).value = .ok schema)
    (hschema' : (compile d').value = .ok schema') : schema.SameWire schema' := by
  intro name
  have hlists := ((Schema.compile_decides d).1 schema hschema).2.1
  have hlists' := ((Schema.compile_decides d').1 schema' hschema').2.1
  have hdeclared : (schema'.message? name).isSome = true ↔ (schema.message? name).isSome = true := by
    rw [hlists'.isSome_message?, hlists.isSome_message?]
    constructor
    · rintro ⟨m', hm', rfl⟩
      obtain ⟨m, hm, hname, -⟩ := h.of_message m' hm'
      exact ⟨m, hm, hname.symm⟩
    · rintro ⟨m, hm, rfl⟩
      obtain ⟨-, m', hm', hname, -⟩ := h.message m hm
      exact ⟨m', hm', hname⟩
  cases hfind : schema.message? name with
  | none =>
    cases hfind' : schema'.message? name with
    | none => exact .none
    | some m' =>
      rw [hfind, hfind'] at hdeclared
      exact absurd (hdeclared.mp rfl) Bool.false_ne_true
  | some m =>
    obtain ⟨m', hfind'⟩ := Option.isSome_iff_exists.mp (hdeclared.mpr (Option.isSome_of_eq_some hfind))
    obtain ⟨hm, hmade⟩ := Schema.denotes_of_message? hschema hfind
    obtain ⟨hm', hmade'⟩ := Schema.denotes_of_message? hschema' hfind'
    -- the name stands for one type in the restated schema
    obtain ⟨t', ht', htmade, -, hformat⟩ := hm.restated h hmade
    obtain ⟨def', hdef', rfl⟩ := (hlists.isSome_message? name).mp (Option.isSome_of_eq_some hfind)
    rw [TypeRef.substitute, (h.message def' hdef').1] at ht'
    obtain rfl := hm'.unique h.names_nodup hmade' ht' htmade
    rw [hfind']
    exact .some (hmade.sameWire hmade' (Format.message.inj hformat))

theorem exists_sameWire {schema : Schema} (hschema : (compile d).value = .ok schema) :
    ∃ schema', (compile d').value = .ok schema' ∧ schema.SameWire schema' := by
  have hwell := h.wellFormed ((Schema.compile_decides d).1 schema hschema).1
  cases hvalue : (compile d').value with
  | ok schema' => exact ⟨schema', rfl, h.sameWire hschema hvalue⟩
  | error e => exact absurd hwell ((Schema.compile_decides d').2 e hvalue)

end SchemaDef.Restates

end Bitwire
