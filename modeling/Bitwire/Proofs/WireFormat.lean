import Bitwire.Proofs.ReadBack
import Bitwire.Proofs.ResolvedTypes
import Bitwire.Proofs.TypePlaces
import Bitwire.Proofs.WireBits

/-!
# The wire format

A record is encoded into as many bytes as its message type needs.  Each value that is no array and
no message lies there as its two's complement, at the sum of the offsets on the way to it; what the
record leaves out lies there as zero, and so do the bits behind the message.
-/

namespace Bitwire

namespace MessageType

/-! ## 1. Encoding -/

namespace Made

variable {m : MessageType} (h : m.Made)

include h

-- A message has room for itself.
theorem width_le : (WireType.message m).width ≤ Format.maxWidth :=
  h.consistent.totalBits_le

-- The format of a message type that was made.
theorem format : m.format.Sound ∧ m.format.Proper ∧ m.format.totalBits = m.layout.totalBits :=
  WireType.Made.format (t := .message m) h h.width_le

theorem byteCount_eq : m.format.byteCount = m.byteCount :=
  congrArg Pattern.byteCount h.format.2.2

/-- A record is encoded exactly if its memory can be asked for and all its entries are accepted, and
then as what is stored for it. -/
theorem encode_ok_iff (r : Record) (bytes : List UInt8) : (m.encode r).value = .ok bytes ↔
    m.format.isAllocatable = true ∧ (Format.message m.format).Accepts (.message r) ∧
      bytes = (DynamicMessage.storing m.format r).wire := by
  have hrecord := DynamicMessage.ofRecord_ok_iff h.format.1 h.format.2.1 r
  rw [encode]
  cases hmsg : DynamicMessage.ofRecord m.format r with
  | error e =>
    refine ⟨fun hok => (nomatch hok), fun ⟨hmemory, haccepts, _⟩ => ?_⟩
    exact nomatch hmsg.symm.trans ((hrecord _).mpr ⟨hmemory, haccepts, rfl⟩)
  | ok msg =>
    obtain ⟨hmemory, haccepts, rfl⟩ := (hrecord msg).mp hmsg
    constructor
    · intro hok
      exact ⟨hmemory, haccepts, (Except.ok.inj hok).symm⟩
    · rintro ⟨-, -, rfl⟩
      rfl

-- A fitting message is encoded again from the record of its fields.
theorem encode_toRecord {msg : DynamicMessage} (hformat : msg.format = m.format)
    (hfit : msg.Fits) (hmemory : m.format.isAllocatable = true) :
    (m.encode msg.toRecord).value = .ok msg.wire := by
  have hsound : msg.format.Sound := hformat ▸ h.format.1
  have hproper : msg.format.Proper := hformat ▸ h.format.2.1
  have hrecord := hfit.ofRecord_toRecord hsound hproper (hformat ▸ hmemory)
  rw [hformat] at hrecord
  obtain ⟨-, haccepts, hstored⟩ :=
    (DynamicMessage.ofRecord_ok_iff h.format.1 h.format.2.1 _ _).mp hrecord
  exact (h.encode_ok_iff _ _).mpr ⟨hmemory, haccepts, congrArg DynamicMessage.wire hstored⟩

/-! ## 2. Where the bits lie -/

-- The bits at the end of a path are those of the number that the record has there.
theorem streamBit_storing (r : Record) {path : FieldPath} {type : WireType} {offset : Nat}
    (hin : (WireType.message m).Inside path type offset) (hs : type.isScalar = true) {k : Nat}
    (hk : k < type.width) :
    streamBit (DynamicMessage.storing m.format r).wire (offset + k) =
      (twosComplement type.width (numberOf ((Value.message r).follow? path))).testBit k := by
  obtain ⟨hmade, hwidth⟩ := hin.made h h.width_le
  obtain ⟨hscalar, hformat⟩ := WireType.scalar_format hs
  have hle := ((hmade.format hwidth).1.scalar_width hscalar).2
  have hfit := DynamicMessage.fits_storing h.format.1 r
  -- the leaf at the end of the path is one of the leaves that are stored
  have hleaf := hin.mem_stored h h.width_le (.message r)
    (l := ⟨type.format, offset, patternOf type.format.width ((Value.message r).follow? path)⟩) (by
      rw [Format.store_scalar hscalar, Format.stored_leaf hscalar]
      exact List.mem_singleton_self _)
  rw [← hformat] at hk ⊢
  rw [DynamicMessage.streamBit_wire_leaf h.format.1 hfit hleaf hk, toNat_patternOf hle]

end Made

/-- Every record that is accepted is encoded, each value inside at its own bits. -/
theorem encode_wireFormat {d : SchemaDef} {schema : Schema} {m : MessageType} {r : Record}
    {msg : DynamicMessage} (hschema : (Schema.compile d).value = .ok schema)
    (hm : m ∈ schema.messages) (hr : DynamicMessage.ofRecord m.format r = .ok msg) :
    ∃ bytes, (m.encode r).value = .ok bytes ∧ bytes.length = (m.layout.totalBits + 7) / 8 ∧
      (∀ path type offset, (WireType.message m).Inside path type offset → type.isScalar = true →
        ∀ k < type.width, streamBit bytes (offset + k) =
          (twosComplement type.width (numberOf ((Value.message r).follow? path))).testBit k) ∧
      ∀ i, m.layout.totalBits ≤ i → streamBit bytes i = false := by
  have h : m.Made := Schema.compile_made hschema hm
  obtain ⟨hsound, hproper, htotal⟩ := h.format
  obtain ⟨hmemory, haccepts, rfl⟩ := (DynamicMessage.ofRecord_ok_iff hsound hproper r msg).mp hr
  have hfit := DynamicMessage.fits_storing hsound r
  refine ⟨_, (h.encode_ok_iff r _).mpr ⟨hmemory, haccepts, rfl⟩, ?_, ?_, ?_⟩
  · rw [DynamicMessage.length_wire hsound hfit]
    exact h.byteCount_eq
  · intro path type offset hin hs k hk
    exact h.streamBit_storing r hin hs hk
  · intro i hi
    exact DynamicMessage.streamBit_wire_padding hsound hfit (htotal.trans_le hi)

end MessageType

/-! ## 3. A weather station -/

/-- The wind and two readings at a station, declared behind a total of 33 bits. -/
def stationSchema : SchemaDef where
  name := "weather"
  aliases := [⟨"Temperature", .int 7⟩]
  enums := [{ name := "Wind", bits := 3, fields := [⟨"CALM", 0⟩, ⟨"GUST", 5⟩] }]
  messages := [
    ⟨"Reading", [⟨2, "valid", .bool⟩, ⟨1, "temperature", .named "Temperature"⟩]⟩,
    ⟨"Station", [⟨7, "total", .uint 33⟩, ⟨4, "readings", .array (.named "Reading") 2⟩,
      ⟨1, "wind", .named "Wind"⟩]⟩]

/-- What a station sends before it has a total. -/
def stationRecord : Record :=
  [("readings", .array [.message [("temperature", .int (-3))],
    .message [("temperature", .uint 9), ("valid", .bool true)]]), ("wind", .int 5)]

theorem ok_of_toOption {ε α : Type} {result : Except ε α} {a : α} (h : result.toOption = some a) :
    result = .ok a := by
  cases result with
  | ok b => exact congrArg Except.ok (Option.some.inj h)
  | error e => exact absurd h.symm (Option.some_ne_none a)

-- A message of a schema is found by its name.
theorem Schema.exists_message? {d : SchemaDef} {name : String} {p : MessageType → Bool}
    (h : ((compile d).value.toOption.bind (·.message? name)).any p = true) :
    ∃ schema m, (compile d).value = .ok schema ∧ schema.message? name = some m ∧ p m = true := by
  obtain ⟨m, hm, hp⟩ := (Option.any_eq_true _ _).mp h
  obtain ⟨schema, hschema, hfind⟩ := Option.bind_eq_some_iff.mp hm
  exact ⟨schema, m, ok_of_toOption hschema, hfind, hp⟩

theorem Schema.exists_message {d : SchemaDef} {name : String} {p : MessageType → Bool}
    (h : ((compile d).value.toOption.bind (·.message? name)).any p = true) :
    ∃ schema m, (compile d).value = .ok schema ∧ m ∈ schema.messages ∧ p m = true := by
  obtain ⟨schema, m, hschema, hfind, hp⟩ := exists_message? h
  exact ⟨schema, m, hschema, List.mem_of_find?_eq_some hfind, hp⟩

namespace MessageType

theorem encode_wireFormat_station : ∃ schema m msg,
    (Schema.compile stationSchema).value = .ok schema ∧ m ∈ schema.messages ∧
      DynamicMessage.ofRecord m.format stationRecord = .ok msg ∧
      (m.encode stationRecord).value = .ok [237, 75, 4, 0, 0, 0, 0] ∧
      ∀ path type offset, (WireType.message m).Inside path type offset → type.isScalar = true →
        ∀ k < type.width, streamBit [237, 75, 4, 0, 0, 0, 0] (offset + k) =
          (twosComplement type.width
            (numberOf ((Value.message stationRecord).follow? path))).testBit k := by
  obtain ⟨schema, m, hschema, hm, hp⟩ := @Schema.exists_message stationSchema
    "Station" (fun m => (DynamicMessage.ofRecord m.format stationRecord).isOk &&
      (m.encode stationRecord).value.toOption == some [237, 75, 4, 0, 0, 0, 0]) (by cbv)
  obtain ⟨hrecord, hencode⟩ := Bool.and_eq_true_iff.mp hp
  cases hr : DynamicMessage.ofRecord m.format stationRecord with
  | error e =>
    rw [hr] at hrecord
    cases hrecord
  | ok msg =>
    obtain ⟨bytes, hbytes, -, hleaves, -⟩ := encode_wireFormat hschema hm hr
    rw [hbytes] at hencode
    obtain rfl := Option.some.inj (eq_of_beq hencode)
    exact ⟨schema, m, msg, hschema, hm, hr, hbytes, hleaves⟩

end MessageType

end Bitwire
