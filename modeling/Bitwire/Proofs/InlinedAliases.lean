import Bitwire.Proofs.RestatedSchemas

/-!
# Aliases are transparent

An alias is another name for a type and nothing more.  A schema can do without: each alias that a
field refers to, at whatever array depth, gives way to what it stands for, and what that refers to
does too, until no alias is left.  The schema without aliases has the wire format of the first.
-/

namespace Bitwire

/-! ## 1. Following aliases -/

theorem TypeRef.names_substitute (σ : String → TypeRef) (r : TypeRef) :
    (r.substitute σ).names = r.names.flatMap fun n => (σ n).names := by
  induction r with
  | bool | int | uint => rfl
  | named n => exact (List.flatMap_singleton _ _).symm
  | array element capacity ih => exact ih

namespace SchemaDef

/-- The alias called `n`. -/
def alias? (d : SchemaDef) (n : String) : Option AliasDef :=
  d.aliases.find? (·.name == n)

/-- What a name stands for when aliases are followed, at most `depth` of them one after the
other. -/
def expand (d : SchemaDef) : (depth : Nat) → String → TypeRef
  | 0, n => .named n
  | depth + 1, n =>
    match d.alias? n with
    | some a => a.target.substitute (d.expand depth)
    | none => .named n

/-- A type with each alias replaced by what it stands for.  No more aliases follow each other than
there are definitions. -/
def inline (d : SchemaDef) : TypeRef → TypeRef :=
  TypeRef.substitute (d.expand d.definitions.length)

/-- The schema without aliases, each replaced by what it stands for. -/
def inlined (d : SchemaDef) : SchemaDef :=
  { d with
    aliases := []
    messages := d.messages.map fun m =>
      { m with fields := m.fields.map fun f => { f with type := d.inline f.type } } }

variable {d : SchemaDef}

theorem of_alias? {n : String} {a : AliasDef} (h : d.alias? n = some a) :
    a ∈ d.aliases ∧ a.name = n := by
  have hname := List.find?_some h
  exact ⟨List.mem_of_find?_eq_some h, eq_of_beq hname⟩

theorem alias?_eq_none_iff {n : String} : d.alias? n = none ↔ ∀ a ∈ d.aliases, a.name ≠ n := by
  rw [alias?, List.find?_eq_none]
  simp only [beq_iff_eq, ne_eq]

theorem alias?_eq_some (hnames : d.names.Nodup) {a : AliasDef} (ha : a ∈ d.aliases) :
    d.alias? a.name = some a := by
  cases hfind : d.alias? a.name with
  | none => exact absurd rfl (alias?_eq_none_iff.mp hfind a ha)
  | some b =>
    obtain ⟨hb, hname⟩ := of_alias? hfind
    have heq := definition_unique hnames (aliasDef_mem.mpr hb) (aliasDef_mem.mpr ha) hname
    rw [Definition.aliasDef.inj heq]

theorem expand_of_none {n : String} (h : d.alias? n = none) (depth : Nat) :
    d.expand depth n = .named n := by
  cases depth with
  | zero => rfl
  | succ depth => rw [expand, h]

-- An alias refers to the names in its target.
theorem refersTo_of_alias? {n n' : String} {a : AliasDef} (h : d.alias? n = some a)
    (hn' : n' ∈ a.target.names) : d.RefersTo n n' := by
  obtain ⟨ha, hname⟩ := of_alias? h
  exact ⟨_, aliasDef_mem.mpr ha, hname, List.mem_flatMap.mpr ⟨_, List.mem_singleton_self _, hn'⟩⟩

section

variable (hwell : d.WellFormed) {depth : Nat} {opened : List String} {n : String}

include hwell

-- Where the depth ends, no alias is left to follow.
theorem alias?_of_exhausted (h : Resolve.Open d 0 opened n) : d.alias? n = none := by
  refine alias?_eq_none_iff.mpr fun a ha hname => ?_
  exact (h.exhausted ⟨_, aliasDef_mem.mpr ha, hname⟩).not_wellFormed hwell

-- Following an alias opens its name, and the names in its target are needed next.
theorem open_of_alias? (h : Resolve.Open d (depth + 1) opened n) {n' : String} {a : AliasDef}
    (ha : d.alias? n = some a) (hn' : n' ∈ a.target.names) :
    Resolve.Open d depth (n :: opened) n' :=
  h.cons (fun hmem => (h.cyclic hmem).not_wellFormed hwell) (refersTo_of_alias? ha hn')

theorem expand_succ (h : Resolve.Open d depth opened n) :
    d.expand (depth + 1) n = d.expand depth n := by
  induction depth generalizing opened n with
  | zero => rw [expand_of_none (alias?_of_exhausted hwell h), expand]
  | succ depth ih =>
    rw [expand, expand]
    cases ha : d.alias? n with
    | none => rfl
    | some a => exact TypeRef.substitute_congr fun n' hn' => ih (open_of_alias? hwell h ha hn')

-- No alias is left in what a name stands for.
theorem alias?_of_mem_expand (h : Resolve.Open d depth opened n) {n' : String}
    (hn' : n' ∈ (d.expand depth n).names) : d.alias? n' = none := by
  induction depth generalizing opened n with
  | zero =>
    rw [List.mem_singleton.mp hn']
    exact alias?_of_exhausted hwell h
  | succ depth ih =>
    rw [expand] at hn'
    cases ha : d.alias? n with
    | none =>
      rw [ha] at hn'
      rw [List.mem_singleton.mp hn', ha]
    | some a =>
      rw [ha, TypeRef.names_substitute] at hn'
      obtain ⟨k, hk, hn'⟩ := List.mem_flatMap.mp hn'
      exact ih (open_of_alias? hwell h ha hk) hn'

end

/-! ## 2. Schemas without aliases -/

section

variable (hwell : d.WellFormed)

include hwell

theorem inline_alias {a : AliasDef} (ha : a ∈ d.aliases) :
    d.inline (.named a.name) = d.inline a.target := by
  change d.expand d.definitions.length a.name = _
  rw [← expand_succ hwell (Resolve.Open.nil d a.name), expand, alias?_eq_some hwell.names_nodup ha]
  rfl

theorem mem_names_inline {r : TypeRef} {n : String} (hn : n ∈ (d.inline r).names) :
    d.alias? n = none := by
  rw [inline, TypeRef.names_substitute] at hn
  obtain ⟨k, -, hn⟩ := List.mem_flatMap.mp hn
  exact alias?_of_mem_expand hwell (Resolve.Open.nil d k) hn

-- The names of enums and messages are not those of aliases.
theorem expand_of_definition {x : Definition} (hx : x ∈ d.definitions)
    (hne : ∀ a, x ≠ .aliasDef a) (depth : Nat) : d.expand depth x.name = .named x.name := by
  refine expand_of_none (alias?_eq_none_iff.mpr fun a ha hname => ?_) depth
  exact hne a (definition_unique hwell.names_nodup hx (aliasDef_mem.mpr ha) hname.symm)

/-- A schema without its aliases is the schema restated. -/
theorem inlined_restates : d.Restates d.inlined (d.expand d.definitions.length) where
  names_nodup := by
    have hsub : d.inlined.names.Sublist d.names := by
      simp only [names, definitions, inlined, List.map_append, List.map_map, List.map_nil,
        List.nil_append, List.append_assoc]
      exact List.sublist_append_right _ _
    exact hsub.nodup hwell.names_nodup
  aliased a ha := .inl (inline_alias hwell ha)
  of_alias a' ha' := absurd ha' List.not_mem_nil
  enum e he := ⟨expand_of_definition hwell (enumDef_mem.mpr he) (fun _ h => by cases h) _, e, he, .refl e⟩
  of_enum e he := ⟨e, he, .refl e⟩
  message m hm := ⟨expand_of_definition hwell (messageDef_mem.mpr hm) (fun _ h => by cases h) _, _,
    List.mem_map_of_mem hm, rfl, .refl _⟩
  of_message m' hm' := by
    obtain ⟨m, hm, rfl⟩ := List.mem_map.mp hm'
    exact ⟨m, hm, rfl, .refl _⟩

end

end SchemaDef

namespace Schema

/-- Aliases are transparent.  A schema that compiles does so without its aliases, each replaced in
the fields of messages by what it stands for, where no alias is left; and a name is that of a
message in both or in neither, and the message has one layout and one format, and is encoded and
decoded alike. -/
theorem compile_inlined {d : SchemaDef} {schema : Schema} (h : (compile d).value = .ok schema) :
    (∀ a ∈ d.aliases, d.inline (.named a.name) = d.inline a.target) ∧
    (∀ n, (∀ a ∈ d.aliases, a.name ≠ n) → d.inline (.named n) = .named n) ∧
    (∀ element capacity, d.inline (.array element capacity) = .array (d.inline element) capacity) ∧
    (∀ r, ∀ n ∈ (d.inline r).names, ∀ a ∈ d.aliases, a.name ≠ n) ∧
    ∃ schema', (compile d.inlined).value = .ok schema' ∧ schema.SameWire schema' := by
  have hwell := ((compile_decides d).1 schema h).1
  refine ⟨fun a ha => SchemaDef.inline_alias hwell ha, fun n hn => ?_, fun _ _ => rfl,
    fun r n hn => ?_, (SchemaDef.inlined_restates hwell).exists_sameWire h⟩
  · exact SchemaDef.expand_of_none (SchemaDef.alias?_eq_none_iff.mpr hn) _
  · exact SchemaDef.alias?_eq_none_iff.mp (SchemaDef.mem_names_inline hwell hn)

/-- The weather station with its readings behind two aliases, declared in front of what they refer
to. -/
def stationSchemaAliased : SchemaDef :=
  { stationSchema with
    aliases := [⟨"Log", .array (.named "Sample") 2⟩, ⟨"Sample", .named "Reading"⟩,
      ⟨"Temperature", .int 7⟩]
    messages := [
      ⟨"Station", [⟨7, "total", .uint 33⟩, ⟨4, "readings", .named "Log"⟩, ⟨1, "wind", .named "Wind"⟩]⟩,
      ⟨"Reading", [⟨2, "valid", .bool⟩, ⟨1, "temperature", .named "Temperature"⟩]⟩] }

theorem compile_inlined_station : ∃ schema schema' m m',
    (compile stationSchemaAliased).value = .ok schema ∧
      (compile stationSchemaAliased.inlined).value = .ok schema' ∧
      schema.message? "Station" = some m ∧ schema'.message? "Station" = some m' ∧ m.SameWire m' ∧
      stationSchemaAliased.inlined.messages = [
        ⟨"Station", [⟨7, "total", .uint 33⟩, ⟨4, "readings", .array (.named "Reading") 2⟩,
          ⟨1, "wind", .named "Wind"⟩]⟩,
        ⟨"Reading", [⟨2, "valid", .bool⟩, ⟨1, "temperature", .int 7⟩]⟩] ∧
      (m'.encode stationRecord).value = .ok [237, 75, 4, 0, 0, 0, 0] := by
  obtain ⟨schema, m, hschema, hm, -⟩ := @exists_message? stationSchemaAliased "Station"
    (fun _ => true) (by cbv)
  obtain ⟨schema', m', hschema', hm', hencode⟩ := @exists_message? stationSchemaAliased.inlined
    "Station" (fun m => (m.encode stationRecord).value.toOption == some [237, 75, 4, 0, 0, 0, 0])
    (by cbv)
  obtain ⟨-, -, -, -, found, hfound, hsame⟩ := compile_inlined hschema
  obtain rfl := Except.ok.inj (hfound.symm.trans hschema')
  have hstation := hsame "Station"
  rw [hm, hm'] at hstation
  cases hstation with
  | some hstation =>
    exact ⟨schema, found, m, m', hschema, hschema', hm, hm', hstation, by decide,
      ok_of_toOption (eq_of_beq hencode)⟩

end Schema

end Bitwire
