import Bitwire.Proofs.SameWire
import Bitwire.Source.Check

/-!
# Formats that generated source builds

The expressions of a generated module build formats: an enum is built by the function that is called
for it, a struct by its codec.  What is built depends on what the module declares.  If it declares
for every enum and every message what is written for it, and no other function or codec, then every
expression builds the format of the type that it was written for, and nothing else.
-/

namespace Bitwire

/-! ## 1. Building -/

section

variable (declared : Item → Prop)

mutual

/-- The format that an expression builds, given what is declared around it. -/
inductive Builds : FormatExpr → Format → Prop
  | bool : Builds .bool .bool
  | int (bits : Nat) : Builds (.int bits) (.int bits)
  | uint (bits : Nat) : Builds (.uint bits) (.uint bits)
  | array {element : FormatExpr} {f : Format} (capacity : Nat) :
      Builds element f → Builds (.array element capacity) (.array f capacity)
  /-- A call of a function builds what the function builds. -/
  | enumCall {function enumName : String} {bits : Nat} {extensible : Bool} {values : List UInt64} :
      declared (.enumFormat function enumName bits extensible values) →
        Builds (.enumCall function) (.enum (.ofValues enumName bits extensible values))
  /-- The shared format of a struct is the one of its codec. -/
  | message {name sizeIdent : String} {fields : List FieldExpr} {placed : List FieldFormat} :
      declared (.codec name sizeIdent fields) → BuildAll fields placed →
        Builds (.message name) (.message (MessageFormat.ofFields name placed))

/-- The fields that the entries of a codec build, in the same order. -/
inductive BuildAll : List FieldExpr → List FieldFormat → Prop
  | nil : BuildAll [] []
  | cons {f : FieldExpr} {format : Format} {rest : List FieldExpr} {placed : List FieldFormat} :
      Builds f.format format → BuildAll rest placed →
        BuildAll (f :: rest) (⟨f.number, f.name, f.offset, format⟩ :: placed)

end

end

-- If every entry builds one format then all entries together do.
theorem buildAll_map_iff {declared : Item → Prop} (offset : Field → Nat) {fields : List Field}
    (h : ∀ f ∈ fields, ∀ format, Builds declared f.type.formatExpr format ↔ format = f.type.format)
    (placed : List FieldFormat) :
    BuildAll declared
        (fields.map fun f => ⟨f.number, f.name, offset f, f.type.formatExpr⟩) placed ↔
      placed = fields.map fun f => ⟨f.number, f.name, offset f, f.type.format⟩ := by
  induction fields generalizing placed with
  | nil =>
    constructor
    · rintro ⟨⟩
      rfl
    · rintro rfl
      exact .nil
  | cons f rest ih =>
    obtain ⟨hf, hrest⟩ := List.forall_mem_cons.mp h
    rw [List.map_cons, List.map_cons]
    constructor
    · intro hbuild
      cases hbuild with
      | cons hformat hall => rw [(hf _).mp hformat, (ih hrest _).mp hall]
    · rintro rfl
      exact .cons ((hf _).mpr rfl) ((ih hrest _).mpr rfl)

/-! ## 2. What is declared -/

/-- The function that builds the format of an enum. -/
def EnumType.formatItem (e : EnumType) : Item :=
  .enumFormat (WireType.enumFunction e.name) e.name e.bits e.extensible
    (e.fields.map EnumValue.value)

/-- The entries of the codec of a message. -/
def MessageType.fieldExprs (m : MessageType) : List FieldExpr :=
  m.sortedFields.map fun f =>
    ⟨f.number, f.name, (m.layout.offsetOf? f.number).getD 0, f.type.formatExpr⟩

/-- The codec of a message. -/
def MessageType.codecItem (m : MessageType) : Item :=
  .codec m.name (SourceModule.sizeIdent m.name) m.fieldExprs

/-- What is declared are the functions of the enums of a schema, the codecs of its messages and the
sizes of these, as far as functions, codecs and such sizes are declared at all. -/
structure Schema.Emitted (schema : Schema) (declared : Item → Prop) : Prop where
  enumFormat_iff (function enumName : String) (bits : Nat) (extensible : Bool)
    (values : List UInt64) : declared (.enumFormat function enumName bits extensible values) ↔
      ∃ e ∈ schema.enums, .enumFormat function enumName bits extensible values = e.formatItem
  codec_iff (name sizeIdent : String) (fields : List FieldExpr) :
    declared (.codec name sizeIdent fields) ↔
      ∃ m ∈ schema.messages, .codec name sizeIdent fields = m.codecItem
  byteCount_iff (m : MessageType) (hm : m ∈ schema.messages) (count : Nat) :
    declared (.byteCount (SourceModule.sizeIdent m.name) count) ↔ count = m.byteCount

/-! ## 3. The types of a schema -/

namespace Schema

variable {d : SchemaDef} {schema : Schema}

-- The enums that types stand for are among those of the schema.
theorem Lists.mem_enums (h : schema.Lists d) {r : TypeRef} {e : EnumType}
    (hr : d.Denotes r (.enum e)) : e ∈ schema.enums := by
  cases hr with
  | enum he =>
    rw [h.enums]
    exact List.mem_map_of_mem (SchemaDef.enumDef_mem.mp he)

-- So are the messages.
theorem Lists.mem_messages (h : schema.Lists d) (hnames : d.names.Nodup)
    (hmade : ∀ m ∈ schema.messages, MessageType.Made m) {r : TypeRef} {m : MessageType}
    (hm : m.Made) (hr : d.Denotes r (.message m)) : m ∈ schema.messages := by
  cases hr with
  | @message def' _ hdef hname hfields =>
    obtain ⟨i, hi, rfl⟩ := List.getElem_of_mem (SchemaDef.messageDef_mem.mp hdef)
    have hi' : i < schema.messages.length := h.messages.length_eq ▸ hi
    obtain ⟨hname', hfields'⟩ := h.messages.get hi hi'
    have hmem := List.getElem_mem hi'
    have hsame := SchemaDef.Denotes.unique hnames (.message hdef hname' hfields')
      (hmade _ hmem) (.message hdef hname hfields) hm
    exact WireType.message.inj hsame ▸ hmem

end Schema

/-! ## 4. Places -/

namespace MessageType.Consistent

variable {m : MessageType} (h : m.Consistent)

include h

-- The fields of the format, each with the place that the layout has for it.
theorem placedFields_eq_map : placedFields 0 m.sortedFields = m.sortedFields.map fun f =>
    ⟨f.number, f.name, (m.layout.offsetOf? f.number).getD 0, f.type.format⟩ := by
  -- behind any fields in front the others start where those end
  have hback : ∀ front back, m.sortedFields = front ++ back →
      placedFields ((front.map fun f => f.type.width).sum) back = back.map fun f =>
        ⟨f.number, f.name, (m.layout.offsetOf? f.number).getD 0, f.type.format⟩ := by
    intro front back hsplit
    induction back generalizing front with
    | nil => rfl
    | cons f back ih =>
      have hf : f ∈ m.fields := by
        rw [← mem_sortedFields, hsplit]
        exact List.mem_append_right _ List.mem_cons_self
      have hnext := ih (front ++ [f]) (by rw [hsplit, List.append_assoc, List.singleton_append])
      rw [List.map_append, List.sum_append, List.map_singleton, List.sum_singleton] at hnext
      rw [placedFields, hnext, List.map_cons, h.offsetOf?_eq hf, h.precedingBits_eq hsplit]
      rfl
  exact hback [] m.sortedFields rfl

end MessageType.Consistent

/-! ## 5. What is built -/

namespace SchemaDef

-- The types of the fields of a denoted message are denoted.
theorem DenoteAll.exists_ref {d : SchemaDef} {fields : List FieldDef} {types : List Field}
    (h : d.DenoteAll fields types) {g : Field} (hg : g ∈ types) : ∃ r, d.Denotes r g.type := by
  obtain ⟨f, -, -, -, hdenotes⟩ := exists_partner (denoteAll_iff.mp h) hg
  exact ⟨f.type, hdenotes⟩

end SchemaDef

namespace Schema

variable {d : SchemaDef} {schema : Schema} {declared : Item → Prop}

section

variable (hemitted : schema.Emitted declared)

include hemitted

theorem Emitted.builds_enum_iff {e : EnumType} (he : e ∈ schema.enums)
    (hfunctions : ∀ e' ∈ schema.enums,
      WireType.enumFunction e.name = WireType.enumFunction e'.name → e = e') (format : Format) :
    Builds declared (WireType.enum e).formatExpr format ↔ format = .enum e.format := by
  rw [WireType.formatExpr]
  constructor
  · intro hbuild
    cases hbuild with
    | enumCall hdeclared =>
      obtain ⟨e', he', hitem⟩ := (hemitted.enumFormat_iff _ _ _ _ _).mp hdeclared
      obtain ⟨hfunction, rfl, rfl, rfl, rfl⟩ := Item.enumFormat.inj hitem
      rw [hfunctions e' he' hfunction]
      rfl
  · rintro rfl
    exact .enumCall ((hemitted.enumFormat_iff _ _ _ _ _).mpr ⟨e, he, rfl⟩)

theorem Emitted.builds_message_iff {m : MessageType} (hm : m ∈ schema.messages)
    (hc : m.Consistent) (hnames : ∀ m' ∈ schema.messages, m.name = m'.name → m = m')
    (hfields : ∀ f ∈ m.fields, ∀ format,
      Builds declared f.type.formatExpr format ↔ format = f.type.format) (format : Format) :
    Builds declared (.message m.name) format ↔ format = .message m.format := by
  have hall := buildAll_map_iff (fun f => (m.layout.offsetOf? f.number).getD 0)
    fun f hf => hfields f (MessageType.mem_sortedFields.mp hf)
  rw [← hc.placedFields_eq_map] at hall
  have hformat : m.format = .ofFields m.name (MessageType.placedFields 0 m.sortedFields) :=
    hc.format_eq
  rw [hformat]
  constructor
  · intro hbuild
    cases hbuild with
    | message hdeclared hplaced =>
      obtain ⟨m', hm', hitem⟩ := (hemitted.codec_iff _ _ _).mp hdeclared
      obtain ⟨hname, -, rfl⟩ := Item.codec.inj hitem
      obtain rfl := hnames m' hm' hname
      rw [(hall _).mp hplaced]
  · rintro rfl
    exact .message ((hemitted.codec_iff _ _ _).mpr ⟨m, hm, rfl⟩) ((hall _).mpr rfl)

/-- The expression that is written for a type builds the format of the type, and no other. -/
theorem Emitted.builds_iff (hlists : schema.Lists d) (hdistinct : d.names.Nodup)
    (hmade : ∀ m ∈ schema.messages, MessageType.Made m)
    (hfunctions : ∀ e ∈ schema.enums, ∀ e' ∈ schema.enums,
      WireType.enumFunction e.name = WireType.enumFunction e'.name → e = e')
    (hmessages : ∀ m ∈ schema.messages, ∀ m' ∈ schema.messages, m.name = m'.name → m = m')
    {t : WireType} (ht : t.Made) {r : TypeRef} (hr : d.Denotes r t) (format : Format) :
    Builds declared t.formatExpr format ↔ format = t.format := by
  induction t using WireType.induct generalizing r format with
  | scalar t hs =>
    cases t with
    | bool =>
      constructor
      · rintro ⟨⟩
        rfl
      · rintro rfl
        exact .bool
    | int bits =>
      constructor
      · rintro ⟨⟩
        rfl
      · rintro rfl
        exact .int bits
    | uint bits =>
      constructor
      · rintro ⟨⟩
        rfl
      · rintro rfl
        exact .uint bits
    | enum e =>
      have he := hlists.mem_enums hr
      exact hemitted.builds_enum_iff he (hfunctions e he) format
    | aliased | array | message => exact absurd hs Bool.false_ne_true
  | aliased name target ih =>
    cases hr with
    | aliased _ htarget => exact ih ht htarget format
  | array element capacity ih =>
    cases hr with
    | array capacity helement =>
      rw [WireType.formatExpr, WireType.format]
      constructor
      · intro hbuild
        cases hbuild with
        | array _ hbuild => rw [(ih ht.1 helement _).mp hbuild]
      · rintro rfl
        exact .array _ ((ih ht.1 helement _).mpr rfl)
  | message m ih =>
    have hm := hlists.mem_messages hdistinct hmade ht hr
    have hmm : m.Made := ht
    refine hemitted.builds_message_iff hm hmm.consistent (hmessages m hm) (fun f hf => ?_) format
    cases hr with
    | message _ _ hfields =>
      obtain ⟨r, hr⟩ := hfields.exists_ref hf
      exact ih f hf (hmm.field hf) hr

end

end Schema

end Bitwire
