import Bitwire.Proofs.BuiltFormats
import Bitwire.Proofs.SharedFormats
import Bitwire.Proofs.WordWalk

/-!
# Types and formats agree

The width of a type and the width of the format that is built for it are the exact width, each cut
off at its own ceiling.  Inside a message nothing is cut off, at any depth: the format has the fields,
the places and the size of the layout, whatever its builder has built before, and all numbers that
the codec computes from it stay within their words.
-/

namespace Bitwire

/-! ## 1. Types and formats side by side -/

namespace WireType

/-- `Beside root format t f` says that a type `t` stands in the type `root` where a format `f` stands
in the format `format`. -/
inductive Beside (root : WireType) (format : Format) : WireType → Format → Prop
  | root : Beside root format root format
  | target {name : String} {target : WireType} {f : Format} :
      Beside root format (.aliased name target) f → Beside root format target f
  | element {element : WireType} {capacity count : Nat} {f : Format} :
      Beside root format (.array element capacity) (.array f count) → Beside root format element f
  | field {m : MessageType} {placed : MessageFormat} {g : Field} {p : FieldFormat} :
      Beside root format (.message m) (.message placed) → g ∈ m.fields →
        p ∈ placed.fields.toList → p.number = g.number → Beside root format g.type p.format

end WireType

-- A field of a format has the format of the field with its number.
theorem MessageType.Made.format_field {m : MessageType} (h : m.Made) {g : Field} (hg : g ∈ m.fields)
    {p : FieldFormat} (hp : p ∈ m.format.fields.toList) (hnumber : p.number = g.number) :
    p.format = g.type.format := by
  rw [h.consistent.format_fields] at hp
  obtain ⟨g', hg', hnumber', -, hformat⟩ := MessageType.mem_placedFields hp
  have hsame : g' = g := List.inj_on_of_nodup_map h.consistent.numbers_nodup
    (MessageType.mem_sortedFields.mp hg') hg (hnumber'.symm.trans hnumber)
  rw [hformat, hsame]

namespace WireType

/-- What stands in a type with room in a message has room itself, and its own format beside it. -/
theorem Beside.format_eq {root t : WireType} {f : Format} (h : Beside root root.format t f)
    (hmade : root.Made) (hw : root.width ≤ Format.maxWidth) :
    t.Made ∧ t.width ≤ Format.maxWidth ∧ f = t.format := by
  induction h with
  | root => exact ⟨hmade, hw, rfl⟩
  | target _ ih => exact ih
  | element _ ih =>
    obtain ⟨harray, hle, hf⟩ := ih
    obtain ⟨helement, hle', -⟩ := harray.element hle
    exact ⟨helement, hle', (Format.array.inj hf).1⟩
  | @field m placed g p _ hg hp hnumber ih =>
    obtain ⟨hm, -, hf⟩ := ih
    have hm : m.Made := hm
    obtain rfl := Format.message.inj hf
    exact ⟨hm.field hg, hm.sized_le hg, hm.format_field hg hp hnumber⟩

end WireType

/-! ## 2. Formats of message types -/

/-- A format that says exactly what a message type says, at all depths, and that the codec can walk
within words. -/
structure MessageFormat.Exact {κ : Type} [DecidableEq κ] (held : HeldDefinitions κ) (m : MessageType)
    (format : MessageFormat) : Prop where
  entries : (format.fields.toList.map fun p => ⟨p.number, p.name, p.offset, p.format.width⟩) =
    m.layout.entries.toList
  totalBits : format.totalBits = m.layout.totalBits
  byteCount : format.byteCount = m.byteCount
  /-- A nested message has the format that any other builder builds for it. -/
  nested : ∀ m' f, WireType.Beside (.message m) (.message format) (.message m') f →
    ∀ b address, FormatBuilder.Reachable held b → WireType.HeldIn held (.message m') address →
      f = .message ((FormatBuilder.message m' address).run b).1
  /-- No width is cut off. -/
  widths : ∀ t f, WireType.Beside (.message m) (.message format) t f →
    t.width = t.exactWidth ∧ f.width = t.exactWidth ∧ t.exactWidth < 2 ^ 32
  elements : ∀ element capacity f,
    WireType.Beside (.message m) (.message format) (.array element capacity) f →
      ∃ g, f = .array g capacity ∧ ∀ i, g.elementOffset i = i * element.exactWidth
  stops : ∀ m' f, WireType.Beside (.message m) (.message format) (.message m') (.message f) →
    ∀ p ∈ f.fields.toList, ∃ g ∈ m'.fields, g.number = p.number ∧
      p.stop = p.offset + g.type.exactWidth ∧ p.stop < 2 ^ 32
  /-- No number that the codec computes for a byte leaves its word. -/
  walk : ∀ byte < format.byteCount, format.visitsChecked byte = some (format.visits byte)

-- The format that a message type has by itself is exact.
theorem MessageType.Made.exact {κ : Type} [DecidableEq κ] (held : HeldDefinitions κ) {m : MessageType}
    (h : m.Made) : m.format.Exact held m := by
  have hmade : (WireType.message m).Made := h
  have hle : (WireType.message m).width ≤ Format.maxWidth := h.width_le
  have hmax : Format.maxWidth < 2 ^ 32 := by decide
  have hsound : m.format.Sound := h.format.1
  have hwidths : ∀ t f, WireType.Beside (.message m) (.message m.format) t f →
      t.width = t.exactWidth ∧ f.width = t.exactWidth ∧ t.exactWidth < 2 ^ 32 := by
    intro t f hbeside
    obtain ⟨ht, hroom, rfl⟩ := hbeside.format_eq hmade hle
    obtain ⟨hwidth, hformat⟩ := ht.width_eq_exactWidth hroom
    exact ⟨hwidth, hformat, by omega⟩
  have hlayout := h.layout_eq
  refine ⟨?_, ?_, ?_, ?_, hwidths, ?_, ?_, fun byte hbyte => hsound.visitsChecked_eq hbyte⟩
  · rw [hlayout]
  · rw [hlayout]
  · exact h.byteCount_eq
  · intro m' f hbeside b address hb hheld
    obtain ⟨hm', -, rfl⟩ := hbeside.format_eq hmade hle
    have hm' : MessageType.Made m' := hm'
    rw [(FormatBuilder.message_yields_of_held hm' hheld b hb.faithful).1]
    rfl
  · intro element capacity f hbeside
    obtain ⟨-, -, rfl⟩ := hbeside.format_eq hmade hle
    have helement := hwidths _ _ hbeside.element
    exact ⟨element.format, rfl, fun i => congrArg (i * ·) helement.2.1⟩
  · intro m' f hbeside p hp
    obtain ⟨hm', -, hf⟩ := hbeside.format_eq hmade hle
    have hm' : MessageType.Made m' := hm'
    obtain rfl := Format.message.inj hf
    have hsound : m'.format.Sound := hm'.format.1
    have hstop := hsound.stop_le hp
    have htotal := hsound.totalBits_le
    have hplaced := hp
    rw [hm'.consistent.format_fields] at hplaced
    obtain ⟨g, hg, hnumber, -, -⟩ := MessageType.mem_placedFields hplaced
    have hg := MessageType.mem_sortedFields.mp hg
    have hwidth := hwidths _ _ (hbeside.field hg hp hnumber)
    exact ⟨g, hg, hnumber.symm, congrArg (p.offset + ·) hwidth.2.1, by omega⟩

/-! ## 3. Schemas -/

namespace Schema

/-- The definitions of a schema, held under their names. -/
def held (schema : Schema) : HeldDefinitions String :=
  ⟨schema.message?, schema.enum?⟩

variable {d : SchemaDef} {schema : Schema}

-- Names lead to the definitions of the schema.
theorem Lists.heldIn (h : schema.Lists d) (hnames : d.names.Nodup)
    (hmades : ∀ m ∈ schema.messages, MessageType.Made m) {r : TypeRef} {t : WireType}
    (hr : d.Denotes r t) (hmade : t.Made) : t.HeldIn schema.held fun _ name => name := by
  have htypes := (List.nodup_append.mp hnames).1
  rw [← h.map_names, List.nodup_append, List.nodup_append] at htypes
  obtain ⟨⟨-, henums, -⟩, hmessages, -⟩ := htypes
  induction t using WireType.induct generalizing r with
  | scalar t hs =>
    cases t with
    | bool | int | uint => trivial
    | enum e => exact find?_of_nodup henums (h.mem_enums hr)
    | aliased | array | message => exact absurd hs Bool.false_ne_true
  | aliased name target ih =>
    cases hr with
    | aliased _ htarget => exact ih htarget hmade
  | array element capacity ih =>
    cases hr with
    | array _ helement => exact ih helement hmade.1
  | message m ih =>
    have hm : m.Made := hmade
    have hmem := h.mem_messages hnames hmades hm hr
    refine ⟨find?_of_nodup hmessages hmem, (WireType.allHeldIn_iff _).mpr fun f hf => ?_⟩
    cases hr with
    | message _ _ hfields =>
      obtain ⟨r, hr⟩ := hfields.exists_ref hf
      exact ih f hf hr (hm.field hf)

-- The messages of a compiled schema are held under their names, with all that is in them.
theorem heldIn_of_compile (hcompile : (compile d).value = .ok schema) {m : MessageType}
    (hm : m ∈ schema.messages) : WireType.HeldIn schema.held (.message m) fun _ name => name := by
  obtain ⟨hwell, hlists, hmade⟩ := (compile_decides d).1 schema hcompile
  obtain ⟨def', hdef, hname, hfields⟩ := exists_partner hlists.messages hm
  exact hlists.heldIn hwell.names_nodup hmade
    (.message (SchemaDef.messageDef_mem.mpr hdef) hname hfields) (hmade m hm)

theorem buildFormats_yields (hcompile : (compile d).value = .ok schema) {messages : List MessageType}
    (h : ∀ m ∈ messages, m ∈ schema.messages) :
    FormatBuilder.Yields schema.held (buildFormats messages)
      (messages.map MessageTypeOf.format) := by
  induction messages with
  | nil => exact FormatBuilder.Yields.pure []
  | cons m rest ih =>
    obtain ⟨hm, hrest⟩ := List.forall_mem_cons.mp h
    have hbuild := FormatBuilder.message_yields_of_held (compile_made hcompile hm)
      (heldIn_of_compile hcompile hm)
    exact hbuild.bind ((ih hrest).bind (FormatBuilder.Yields.pure _))

/-- The formats that one builder builds for the messages of a schema are those of the messages. -/
theorem formats_eq (hcompile : (compile d).value = .ok schema) :
    schema.formats = schema.messages.map MessageTypeOf.format := by
  have hnew : FormatBuilder.Reachable schema.held {} := .new
  exact (buildFormats_yields hcompile (fun _ hm => hm) {} hnew.faithful).1

end Schema

/-! ## 4. Builders -/

/-- The width of a type and the width of its format are the exact one, each cut off at its own
ceiling.  Whatever a builder has built before, it builds the format of the type; that of a message
type is exact at all depths.  So the formats that one builder builds for all messages of a schema are
those of the messages. -/
theorem FormatBuilder.build_agrees {κ : Type} [DecidableEq κ] {held : HeldDefinitions κ}
    {b : FormatBuilder κ} (hb : Reachable held b) :
    (∀ t : WireType, t.Made →
      t.width = min t.exactWidth Layout.widthCeiling ∧
      t.format.width = min t.exactWidth Format.maxWidth ∧
      ∀ address, t.HeldIn held address → ((build t address).run b).1 = t.format) ∧
    (∀ (m : MessageType) address, m.Made → WireType.HeldIn held (.message m) address →
      ((message m address).run b).1.Exact held m) ∧
    ∀ {d : SchemaDef} {schema : Schema}, (Schema.compile d).value = .ok schema →
      schema.formats = schema.messages.map MessageTypeOf.format := by
  refine ⟨fun t hmade => ⟨hmade.expressible.width_eq, hmade.format_width_eq, fun address hheld => ?_⟩,
    fun m address hmade hheld => ?_, Schema.formats_eq⟩
  · exact (build_yields hmade hheld b hb.faithful).1
  · rw [(message_yields_of_held hmade hheld b hb.faithful).1]
    exact hmade.exact held

/-- An array that is wider than either ceiling. -/
def hugeArray : WireType :=
  .array (.array (.uint 64) 1152921504606846976) 3

theorem FormatBuilder.build_agrees_station : ∃ schema m reading,
    (Schema.compile stationSchema).value = .ok schema ∧ m ∈ schema.messages ∧
      reading ∈ schema.messages ∧
      ∃ b, b = ((message reading fun _ name => name).run {}).2 ∧ Reachable schema.held b ∧
        b.messages.map Prod.fst = ["Reading"] ∧
        ((message m fun _ name => name).run b).1.Exact schema.held m ∧
        ((message m fun _ name => name).run b).1.totalBits = 52 ∧
        hugeArray.width = 18446744073709551615 ∧
        ((build hugeArray fun _ name => name).run b).1.width = 4294967295 := by
  obtain ⟨schema, m, hschema, hm, hbits⟩ := @Schema.exists_message stationSchema "Station"
    (fun m => m.layout.totalBits == 52) (by cbv)
  obtain ⟨schema', reading, hschema', hreading, hbuilt⟩ := @Schema.exists_message stationSchema
    "Reading" (fun m => ((message m fun _ name => name).run {}).2.messages.map Prod.fst ==
      ["Reading"]) (by cbv)
  obtain rfl := Except.ok.inj (hschema.symm.trans hschema')
  have hb : Reachable schema.held ((message reading fun _ name => name).run {}).2 :=
    Reachable.new.message (Schema.compile_made hschema hreading)
      (Schema.heldIn_of_compile hschema hreading)
  have hexact := (build_agrees hb).2.1 m _ (Schema.compile_made hschema hm)
    (Schema.heldIn_of_compile hschema hm)
  have hhuge : hugeArray.Made := ⟨⟨rfl, rfl⟩, rfl⟩
  obtain ⟨hwidth, hformat, hbuild⟩ := (build_agrees hb).1 hugeArray hhuge
  refine ⟨schema, m, reading, hschema, hm, hreading, _, rfl, hb, eq_of_beq hbuilt, hexact,
    hexact.totalBits.trans (eq_of_beq hbits), ?_, ?_⟩
  · rw [hwidth]
    decide
  · rw [hbuild (fun _ name => name) trivial, hformat]
    decide

end Bitwire
