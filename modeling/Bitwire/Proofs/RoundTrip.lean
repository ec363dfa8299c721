import Bitwire.Proofs.ClosedEnums
import Bitwire.Proofs.NormalRecords
import Bitwire.Proofs.WireFormat

/-!
# The two round trips

A record that was encoded is decoded as its normal record, whatever bytes follow.  Bytes that were
decoded are encoded again as themselves, without the bits behind the message.
-/

namespace Bitwire

/-! ## 1. Decoding -/

-- After a success the second operation goes on with its result.
theorem Logged.value_thenTry {ε α β : Type} {first : Logged (Except ε α)} {a : α}
    (h : first.value = .ok a) (next : α → Logged (Except ε β)) :
    (first.thenTry next).value = (next a).value := by
  rw [thenTry, andThen, h]

theorem Logged.value_map {α β : Type} (f : α → β) (logged : Logged α) :
    (logged.map f).value = f logged.value := rfl

namespace MessageType

theorem decoded_of {m : MessageType} (hmemory : m.format.isAllocatable = true) (data : List UInt8) :
    m.decoded data = (m.format.decodeInto DynamicMessage.accessor (.blank m.format) data).run.map
      Failure.ofExcept := by
  rw [decoded, DynamicMessage.zeroed_of hmemory]

-- The record of the message that bytes are decoded into is what they are decoded as.
theorem decode_of_decodeInto {m : MessageType} (hmemory : m.format.isAllocatable = true)
    {data : List UInt8} {msg : DynamicMessage}
    (hinto : (m.format.decodeInto DynamicMessage.accessor (.blank m.format) data).run.value =
      .ok msg) : (m.decode data).value = .ok msg.toRecord := by
  have hdecoded : (m.decoded data).value = .ok msg := by
    rw [decoded_of hmemory, Logged.value_map, hinto]
    rfl
  rw [decode, Logged.value_thenTry hdecoded, Logged.value_map,
    m.format.verify_default DynamicMessage.accessor msg]

-- Without the memory nothing is decoded.
theorem decode_of_not_allocatable {m : MessageType} (hmemory : ¬m.format.isAllocatable = true)
    (data : List UInt8) (config : CodecConfig) :
    m.decode data config = .silent (.error .capacityOverflow) := by
  rw [decode, decoded, DynamicMessage.zeroed_of_not hmemory]
  rfl

namespace Made

variable {m : MessageType} (h : m.Made)

include h

-- Enough bytes are decoded if the memory can be asked for: every leaf collects its bits.
theorem decode_value (hmemory : m.format.isAllocatable = true) {data : List UInt8}
    (hlen : m.byteCount ≤ data.length) :
    (m.decode data).value = .ok ((DynamicMessage.blank m.format).mapLeaves
      (DynamicMessage.absorbAll 0 (data.take m.byteCount))).toRecord := by
  have hdecoded := @DynamicMessage.Fits.decodeFrom_run (.blank m.format) h.format.1
    (DynamicMessage.fits_blank m.format) (data.take m.byteCount) 0
  generalize (DynamicMessage.blank m.format).mapLeaves
    (DynamicMessage.absorbAll 0 (data.take m.byteCount)) = msg at hdecoded ⊢
  have hinto : (m.format.decodeInto DynamicMessage.accessor (.blank m.format) data).run.value =
      .ok msg := by
    rw [MessageFormat.decodeInto, h.byteCount_eq, if_neg (by omega), ← hdecoded]
    rfl
  exact decode_of_decodeInto hmemory hinto

/-! ## 2. Records -/

-- A record that was encoded is decoded as its normal record.
theorem decode_value_encode {r : Record} {bytes : List UInt8}
    (hbytes : (m.encode r).value = .ok bytes) (suffix : List UInt8) :
    (m.decode (bytes ++ suffix)).value = .ok (m.normal r) := by
  obtain ⟨hsound, hproper, -⟩ := h.format
  obtain ⟨hmemory, haccepts, rfl⟩ := (h.encode_ok_iff r bytes).mp hbytes
  have hfit := DynamicMessage.fits_storing hsound r
  have hlen : (DynamicMessage.storing m.format r).wire.length = m.byteCount :=
    (DynamicMessage.length_wire hsound hfit).trans h.byteCount_eq
  have hback : (DynamicMessage.blank m.format).mapLeaves
      (DynamicMessage.absorbAll 0 (DynamicMessage.storing m.format r).wire) =
        DynamicMessage.storing m.format r :=
    DynamicMessage.mapLeaves_wire hsound hfit
  have hvalue := @WireType.Made.toValue_store (.message m) h h.width_le
    (some (.message r)) fun v hv => by rwa [← Option.some.inj hv]
  rw [h.decode_value hmemory (by rw [List.length_append]; omega), List.take_left' hlen, hback]
  exact congrArg Except.ok (Value.message.inj hvalue)

end Made

/-- Decoding undoes encoding: the record that comes back is the normal one, with every field, in
the forms of the types and with the numbers that went in. -/
theorem decode_encode {d : SchemaDef} {schema : Schema} {m : MessageType} {r : Record}
    {bytes : List UInt8} (hschema : (Schema.compile d).value = .ok schema)
    (hm : m ∈ schema.messages) (hbytes : (m.encode r).value = .ok bytes) (suffix : List UInt8) :
    (m.decode (bytes ++ suffix)).value = .ok (m.normal r) ∧
      ∀ path type offset, (WireType.message m).Inside path type offset →
        ∃ value, (Value.message (m.normal r)).follow? path = some value ∧
          type.Represents value ∧ (type.isScalar = true →
            value.number = numberOf ((Value.message r).follow? path)) := by
  have h : m.Made := Schema.compile_made hschema hm
  refine ⟨h.decode_value_encode hbytes suffix, fun path type offset hin => ?_⟩
  have hmade := hin.made h h.width_le
  have haccepts := hin.accepts h h.width_le ((h.encode_ok_iff r bytes).mp hbytes).2.1
  refine ⟨type.normal ((Value.message r).follow? path), ?_, hmade.1.represents_normal _, ?_⟩
  · exact hin.follow?_normal h h.width_le (.message r)
  · exact fun hs => (hmade.1.normal_scalar hs haccepts).2

theorem decode_encode_station : ∃ schema m,
    (Schema.compile stationSchema).value = .ok schema ∧ m ∈ schema.messages ∧
      (m.encode stationRecord).value = .ok [237, 75, 4, 0, 0, 0, 0] ∧
      (m.decode [237, 75, 4, 0, 0, 0, 0, 255, 1]).value = .ok (m.normal stationRecord) := by
  obtain ⟨schema, m, hschema, hm, hp⟩ := @Schema.exists_message stationSchema "Station"
    (fun m => (m.encode stationRecord).value.toOption == some [237, 75, 4, 0, 0, 0, 0]) (by cbv)
  cases hbytes : (m.encode stationRecord).value with
  | error e =>
    rw [hbytes] at hp
    cases hp
  | ok bytes =>
    rw [hbytes] at hp
    obtain rfl := Option.some.inj (eq_of_beq hp)
    exact ⟨schema, m, hschema, hm, hbytes, (decode_encode hschema hm hbytes [255, 1]).1⟩

/-! ## 3. Bytes -/

/-- Enough bytes are decoded exactly if the memory of the message can be asked for, and then
encoding undoes decoding: the bytes that come back are those of the message, with the bits behind it
cleared. -/
theorem encode_decode {d : SchemaDef} {schema : Schema} {m : MessageType} {data : List UInt8}
    (hschema : (Schema.compile d).value = .ok schema) (hm : m ∈ schema.messages)
    (hlen : m.byteCount ≤ data.length) :
    ((∃ r, (m.decode data).value = .ok r) ↔ m.format.isAllocatable = true) ∧
      ∀ r, (m.decode data).value = .ok r →
        (m.encode r).value = .ok (clearFrom m.layout.totalBits (data.take m.byteCount)) := by
  have h : m.Made := Schema.compile_made hschema hm
  obtain ⟨hsound, hproper, htotal⟩ := h.format
  by_cases hmemory : m.format.isAllocatable = true
  · have hdecoded := h.decode_value hmemory hlen
    refine ⟨⟨fun _ => hmemory, fun _ => ⟨_, hdecoded⟩⟩, fun r hr => ?_⟩
    obtain rfl := Except.ok.inj (hdecoded.symm.trans hr)
    have hfit := (DynamicMessage.fits_blank m.format).mapLeaves_absorbAll (data.take m.byteCount) 0
    have htake : (data.take m.byteCount).length = m.format.byteCount := by
      rw [List.length_take, h.byteCount_eq]
      omega
    rw [h.encode_toRecord rfl hfit hmemory, DynamicMessage.wire_mapLeaves hsound hproper htake, htotal]
  · have hfailed := congrArg Logged.value (decode_of_not_allocatable hmemory data {})
    refine ⟨⟨?_, fun hyes => absurd hyes hmemory⟩, ?_⟩
    · rintro ⟨r, hr⟩
      cases hfailed.symm.trans hr
    · intro r hr
      cases hfailed.symm.trans hr

theorem encode_decode_station : ∃ schema m r,
    (Schema.compile stationSchema).value = .ok schema ∧ m ∈ schema.messages ∧ m.byteCount ≤ 8 ∧
      (m.decode [213, 239, 132, 3, 4, 5, 66, 255]).value = .ok r ∧
      (m.encode r).value = .ok [213, 239, 132, 3, 4, 5, 2] := by
  obtain ⟨schema, m, hschema, hm, hp⟩ := @Schema.exists_message stationSchema "Station"
    (fun m => m.layout.totalBits == 52 && m.format.isAllocatable) (by cbv)
  obtain ⟨hbits, hmemory⟩ := Bool.and_eq_true_iff.mp hp
  have htotal : m.layout.totalBits = 52 := eq_of_beq hbits
  have hcount : m.byteCount = 7 := congrArg Pattern.byteCount htotal
  have hlen : m.byteCount ≤ ([213, 239, 132, 3, 4, 5, 66, 255] : List UInt8).length := by
    rw [hcount]
    decide
  obtain ⟨hdecodes, hback⟩ := encode_decode hschema hm hlen
  obtain ⟨r, hdecode⟩ := hdecodes.mpr hmemory
  have hencode := hback r hdecode
  rw [htotal, hcount] at hencode
  exact ⟨schema, m, r, hschema, hm, hlen, hdecode, hencode⟩

/-- A message of more empty messages than memory can be asked for. -/
def hugeSchema : SchemaDef where
  name := "huge"
  messages := [⟨"Empty", []⟩,
    ⟨"Huge", [⟨1, "items", .array (.named "Empty") 18446744073709551615⟩]⟩]

-- It needs no bytes, and yet none can be decoded.
theorem decode_huge_capacityOverflow : ∃ schema m,
    (Schema.compile hugeSchema).value = .ok schema ∧ m ∈ schema.messages ∧ m.byteCount = 0 ∧
      (m.decode []).value = .error .capacityOverflow ∧
      ¬∃ r, (m.decode []).value = .ok r := by
  obtain ⟨schema, m, hschema, hm, hp⟩ := @Schema.exists_message hugeSchema "Huge"
    (fun m => m.byteCount == 0 && !m.format.isAllocatable) (by cbv)
  obtain ⟨hcount, hmemory⟩ := Bool.and_eq_true_iff.mp hp
  rw [Bool.not_eq_true'] at hmemory
  have hfailed := congrArg Logged.value
    (decode_of_not_allocatable (Bool.eq_false_iff.mp hmemory) [] {})
  refine ⟨schema, m, hschema, hm, eq_of_beq hcount, hfailed, ?_⟩
  rintro ⟨r, hr⟩
  cases hfailed.symm.trans hr

end MessageType

end Bitwire
