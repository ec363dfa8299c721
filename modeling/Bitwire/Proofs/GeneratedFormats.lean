import Bitwire.Proofs.DistinctIdentifiers
import Bitwire.Proofs.LegibleSchemas
import Bitwire.Proofs.WireFormat

/-!
# Formats of generated source

Whoever reads generated source without knowing the schema finds its formats there.  The text of a
rendered schema declares the function of every enum, the codec of every message and the size of
every message, and no others of that name; so what its expressions build are the formats that
compiling the schema has built.
-/

namespace Bitwire

open SourceReader (read said)

/-! ## 1. What items say -/

namespace SourceReader

-- A function or a codec is said by itself only.
theorem mem_said_enumFormat {function enumName : String} {bits : Nat} {extensible : Bool}
    {values : List UInt64} {item : Item} :
    .enumFormat function enumName bits extensible values ∈ said item ↔
      .enumFormat function enumName bits extensible values = item := by
  cases item with
  | enumValue ident enumName' value =>
    rw [said]
    split_ifs <;> simp
  | _ => simp [said]

theorem mem_said_codec {name sizeIdent : String} {fields : List FieldExpr} {item : Item} :
    .codec name sizeIdent fields ∈ said item ↔ .codec name sizeIdent fields = item := by
  cases item with
  | enumValue ident enumName' value =>
    rw [said]
    split_ifs <;> simp
  | _ => simp [said]

-- A size may also be said by a value of an enum.
theorem mem_said_byteCount {ident : String} {count : Nat} {item : Item}
    (h : .byteCount ident count ∈ said item) :
    .byteCount ident count = item ∨ ∃ enumName value, .enumValue ident enumName value = item := by
  cases item with
  | enumValue ident' enumName' value =>
    rw [said] at h
    split_ifs at h
    · obtain ⟨rfl, -⟩ := Item.byteCount.inj (List.mem_singleton.mp h)
      exact .inr ⟨enumName', value, rfl⟩
    · cases h
  | byteCount ident' count' => exact .inl (List.mem_singleton.mp h)
  | _ => simp [said] at h

end SourceReader

/-! ## 2. What modules say -/

namespace SourceModule

variable {schema : Schema} {codecPath : String}

theorem enumFormat_mem_items {function enumName : String} {bits : Nat} {extensible : Bool}
    {values : List UInt64} :
    .enumFormat function enumName bits extensible values ∈ (ofSchema schema codecPath).items ↔
      ∃ e ∈ schema.enums, .enumFormat function enumName bits extensible values = e.formatItem := by
  rw [mem_items]
  constructor
  · rintro (⟨c, -, h⟩ | ⟨a, -, h⟩ | ⟨e, he, h⟩ | ⟨m, -, h⟩)
    · cases h
    · cases h
    · rcases mem_enumGroups.mp h with h | ⟨f, -, h⟩ | h | h
      · cases h
      · cases h
      · cases h
      · exact ⟨e, he, h⟩
    · rcases mem_messageGroups.mp h with h | h | h | h | h <;> cases h
  · rintro ⟨e, he, h⟩
    exact .inr (.inr (.inl ⟨e, he, mem_enumGroups.mpr (.inr (.inr (.inr h)))⟩))

theorem codec_mem_items {name sizeIdent : String} {fields : List FieldExpr} :
    .codec name sizeIdent fields ∈ (ofSchema schema codecPath).items ↔
      ∃ m ∈ schema.messages, .codec name sizeIdent fields = m.codecItem := by
  rw [mem_items]
  constructor
  · rintro (⟨c, -, h⟩ | ⟨a, -, h⟩ | ⟨e, -, h⟩ | ⟨m, hm, h⟩)
    · cases h
    · cases h
    · rcases mem_enumGroups.mp h with h | ⟨f, -, h⟩ | h | h <;> cases h
    · rcases mem_messageGroups.mp h with h | h | h | h | h
      · cases h
      · cases h
      · cases h
      · cases h
      · exact ⟨m, hm, h⟩
  · rintro ⟨m, hm, h⟩
    exact .inr (.inr (.inr ⟨m, hm, mem_messageGroups.mpr (.inr (.inr (.inr (.inr h))))⟩))

theorem byteCount_mem_items {ident : String} {count : Nat} :
    .byteCount ident count ∈ (ofSchema schema codecPath).items ↔
      ∃ m ∈ schema.messages, ident = sizeIdent m.name ∧ count = m.byteCount := by
  rw [mem_items]
  constructor
  · rintro (⟨c, -, h⟩ | ⟨a, -, h⟩ | ⟨e, -, h⟩ | ⟨m, hm, h⟩)
    · cases h
    · cases h
    · rcases mem_enumGroups.mp h with h | ⟨f, -, h⟩ | h | h <;> cases h
    · rcases mem_messageGroups.mp h with h | h | h | h | h
      · exact ⟨m, hm, Item.byteCount.inj h⟩
      · cases h
      · cases h
      · cases h
      · cases h
  · rintro ⟨m, hm, rfl, rfl⟩
    exact .inr (.inr (.inr ⟨m, hm, mem_messageGroups.mpr (.inl rfl)⟩))

theorem enumValue_mem_items {ident enumName : String} {value : UInt64}
    (h : .enumValue ident enumName value ∈ (ofSchema schema codecPath).items) :
    ∃ e ∈ schema.enums, ∃ f ∈ e.fields, Identifier.upperSnakeCase f.name = ident := by
  rcases mem_items.mp h with ⟨c, -, h⟩ | ⟨a, -, h⟩ | ⟨e, he, h⟩ | ⟨m, -, h⟩
  · cases h
  · cases h
  · rcases mem_enumGroups.mp h with h | ⟨f, hf, h⟩ | h | h
    · cases h
    · exact ⟨e, he, f, hf, (Item.enumValue.inj h).1⟩
    · cases h
    · cases h
  · rcases mem_messageGroups.mp h with h | h | h | h | h <;> cases h

end SourceModule

/-! ## 3. What is built -/

namespace Schema

variable {d : SchemaDef} {schema : Schema} {codecPath source : String}

-- No two items of a rendered schema need one identifier.
theorem noConflict (hcompile : (compile d).value = .ok schema)
    (hrender : (schema.render codecPath).value = .ok source) :
    Claim.firstConflict? [] (Claim.ofSchema schema) = none := by
  rw [Claim.firstConflict?_nil, Claim.keys_ofSchema hcompile]
  exact ((render_ok_iff hcompile codecPath source).mp hrender).1

section

variable (hcompile : (compile d).value = .ok schema) (hnamed : d.Named)
  (hpath : SourceReader.IsLine codecPath)
  (hrender : (schema.render codecPath).value = .ok source)

include hcompile hnamed hpath hrender

-- What is read from rendered source is what the items of its module say.
theorem read_render : read source = (SourceModule.ofSchema schema codecPath).items.flatMap said := by
  obtain ⟨-, rfl⟩ := (render_ok_iff hcompile codecPath source).mp hrender
  refine SourceReader.read_text ?_ ?_ (legible_items hnamed hcompile codecPath)
  · show SourceReader.IsLine schema.name
    rw [(compile_constants hcompile).1]
    exact hnamed.name
  · intro path hpath'
    rw [SourceModule.ofSchema] at hpath'
    split at hpath'
    · cases hpath'
    · exact Option.some.inj hpath' ▸ hpath

/-- Rendered source declares what is written for the enums and the messages of the schema, and no
other function, codec or size. -/
theorem emitted_render : schema.Emitted (· ∈ read source) where
  enumFormat_iff function enumName bits extensible values := by
    rw [read_render hcompile hnamed hpath hrender, List.mem_flatMap]
    simp only [SourceReader.mem_said_enumFormat, exists_eq_right']
    exact SourceModule.enumFormat_mem_items
  codec_iff name sizeIdent fields := by
    rw [read_render hcompile hnamed hpath hrender, List.mem_flatMap]
    simp only [SourceReader.mem_said_codec, exists_eq_right']
    exact SourceModule.codec_mem_items
  byteCount_iff m hm count := by
    have hnone := noConflict hcompile hrender
    rw [read_render hcompile hnamed hpath hrender, List.mem_flatMap]
    constructor
    · rintro ⟨item, hitem, hsaid⟩
      rcases SourceReader.mem_said_byteCount hsaid with rfl | ⟨enumName, value, rfl⟩
      · obtain ⟨m', hm', hident, rfl⟩ := SourceModule.byteCount_mem_items.mp hitem
        rw [Claim.message_of_size hnone hm hm' hident]
      · obtain ⟨e, he, f, hf, hident⟩ := SourceModule.enumValue_mem_items hitem
        exact absurd hident (Claim.enumValue_ne_size hnone he hf hm)
    · rintro rfl
      exact ⟨_, SourceModule.byteCount_mem_items.mpr ⟨m, hm, rfl, rfl⟩, List.mem_singleton_self _⟩

/-- What a rendered text says, read by itself, builds what compiling has built: the function of
every enum builds the format of the enum, the codec of every message builds the format of the
message and nothing else, and its size is the number of bytes of that format. -/
theorem render_builds :
    (∀ e ∈ schema.enums, ∀ format,
      Builds (· ∈ read source) (.enumCall (WireType.enumFunction e.name)) format ↔
        format = .enum e.format) ∧
    ∀ m ∈ schema.messages,
      (∀ format, Builds (· ∈ read source) (.message m.name) format ↔
        format = .message m.format) ∧
      ∀ count, (∃ sizeIdent fields, .codec m.name sizeIdent fields ∈ read source ∧
        .byteCount sizeIdent count ∈ read source) ↔ count = m.format.byteCount := by
  have hemitted := emitted_render hcompile hnamed hpath hrender
  have hnone := noConflict hcompile hrender
  obtain ⟨hwell, hlists, hmade⟩ := (compile_decides d).1 schema hcompile
  have hfunctions : ∀ e ∈ schema.enums, ∀ e' ∈ schema.enums,
      WireType.enumFunction e.name = WireType.enumFunction e'.name → e = e' :=
    fun e he e' he' => Claim.enum_of_function hnone he he'
  have hmessages : ∀ m ∈ schema.messages, ∀ m' ∈ schema.messages, m.name = m'.name → m = m' :=
    fun m hm m' hm' hname => Claim.message_of_size hnone hm hm' (congrArg _ hname)
  refine ⟨fun e he => hemitted.builds_enum_iff he (hfunctions e he), fun m hm => ⟨?_, ?_⟩⟩
  · intro format
    obtain ⟨def', hdef, hname, hall⟩ := exists_partner hlists.messages hm
    exact hemitted.builds_iff hlists hwell.names_nodup hmade hfunctions hmessages
      (t := .message m) (hmade m hm)
      (.message (SchemaDef.messageDef_mem.mpr hdef) hname hall) format
  · intro count
    rw [(hmade m hm).byteCount_eq, ← hemitted.byteCount_iff m hm]
    constructor
    · rintro ⟨sizeIdent, fields, hcodec, hcount⟩
      obtain ⟨m', hm', hitem⟩ := (hemitted.codec_iff _ _ _).mp hcodec
      obtain ⟨hname, rfl, -⟩ := Item.codec.inj hitem
      rwa [hname]
    · exact fun hcount => ⟨_, m.fieldExprs, (hemitted.codec_iff _ _ _).mpr ⟨m, hm, rfl⟩, hcount⟩

end

theorem render_builds_station : ∃ schema m source sizeIdent fields,
    (compile stationSchema).value = .ok schema ∧ m ∈ schema.messages ∧ m.name = "Station" ∧
      (schema.render SourceModule.usualCodecPath).value = .ok source ∧
      Builds (· ∈ read source) (.message "Station") (.message m.format) ∧
      .codec "Station" sizeIdent fields ∈ read source ∧
      .byteCount sizeIdent 7 ∈ read source := by
  obtain ⟨schema, m, hschema, hm, hp⟩ := @Schema.exists_message stationSchema "Station"
    (fun m => m.name == "Station" && m.format.byteCount == 7) (by cbv)
  obtain ⟨hname, hcount⟩ := Bool.and_eq_true_iff.mp hp
  have hname := eq_of_beq hname
  have hnamed : stationSchema.Named :=
    ⟨SourceReader.isLine_chars _ rfl rfl, by decide, by decide, by decide, by decide, by decide,
      by decide⟩
  have hrender := (render_ok_iff hschema SourceModule.usualCodecPath _).mpr
    ⟨by decide +kernel, rfl⟩
  obtain ⟨hbuilds, hsize⟩ := (render_builds hschema hnamed
    (SourceReader.isLine_chars _ rfl rfl) hrender).2 m hm
  obtain ⟨sizeIdent, fields, hcodec, hbytes⟩ := (hsize 7).mpr (eq_of_beq hcount).symm
  rw [hname] at hbuilds hcodec
  exact ⟨schema, m, _, sizeIdent, fields, hschema, hm, hname, hrender, (hbuilds _).mpr rfl,
    hcodec, hbytes⟩

end Schema

end Bitwire
