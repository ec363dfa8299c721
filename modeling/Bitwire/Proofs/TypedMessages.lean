import Bitwire.Proofs.TypedPlaces

/-!
# Typed messages simulate dynamic ones

Whatever the codec does with a typed message of the drone protocol, it does with the dynamic message
of the compiled schema that holds the patterns of its fields, and no place that the codec asks for
is refused.  The fields of a typed message may hold more bits than they should; a message that was
decoded holds none, so its fields are the values of the record that the schema decodes.
-/

namespace Bitwire

/-! ## 1. Records of typed messages -/

/-- The fields of a scenario. -/
def Scenario.entries (s : Scenario) : List (String × Value) :=
  [("small", .uint s.small.toUInt64), ("signed", .int s.signed.toInt64), ("flag", .bool s.flag)]

/-- The fields of a reading. -/
def Reading.entries (r : Reading) : List (String × Value) :=
  [("temperature", .int r.temperature.toInt64), ("valid", .bool r.valid)]

/-- An array of arrays of bytes as the value of a record. -/
def Value.ofGrid {n k : Nat} (rows : Vector (Vector UInt8 k) n) : Value :=
  .array (rows.toList.map fun row => .array (row.toList.map fun b => .uint b.toUInt64))

/-- The fields of a drone. -/
def Drone.entries (d : Drone) : List (String × Value) :=
  [("mode", .uint d.mode.toUInt64),
    ("readings", .array (d.readings.toList.map fun r => .message (Record.ofList r.entries))),
    ("grid", .ofGrid d.grid), ("altitude", .uint d.altitude.toUInt64)]

/-- The fields of extremes. -/
def Extremes.entries (e : Extremes) : List (String × Value) :=
  [("low", .int e.low), ("type", .uint e.type), ("rows", .ofGrid e.rows),
    ("sample", .message (Record.ofList e.sample.entries)), ("channel", .uint e.channel.toUInt64),
    ("self", .int e.self)]

/-- The values of the fields of a typed message, by name. -/
def TypedMessage.record : TypedMessage → Record
  | .scenario s => Record.ofList s.entries
  | .reading r => Record.ofList r.entries
  | .drone d => Record.ofList d.entries
  | .extremes e => Record.ofList e.entries

namespace Node

-- The elements of an array have the values of its items.
theorem toValue_ofVector {α : Type} {n capacity : Nat} {node : α → Node} {v : Vector α n}
    {element : Format} {value : α → Value}
    (h : ∀ (i : Nat) (hi : i < n), (node v[i]).toValue element = value v[i]) :
    (ofVector node v).toValue (.array element capacity) = .array (v.toList.map value) := by
  show Value.array (itemValues (v.toArray.map node).toList element) = _
  rw [itemValues_eq_map, Array.toList_map, List.map_map]
  refine congrArg Value.array (List.map_congr_left fun a ha => ?_)
  obtain ⟨i, hi, rfl⟩ := Vector.mem_iff_getElem.mp (Vector.mem_toList_iff.mp ha)
  exact h i hi

end Node

-- The values of an array of arrays in range are its elements.
theorem Cell.AllInRange.toValue {n k : Nat} {bits : Nat} {rows : Vector (Vector UInt8 k) n}
    (h : (Cell.uint8 (.uint bits)).AllInRange rows) :
    (Node.ofVector (.ofVector (Cell.uint8 (.uint bits)).node) rows).toValue
      (.array (.array (.uint bits) k) n) = .ofGrid rows :=
  Node.toValue_ofVector fun a ha => Node.toValue_ofVector fun b hb => h a ha b hb

-- The fields of messages in range have the values that their nodes stand for.
theorem Scenario.InRange.fieldValues {s : Scenario} (h : s.InRange) :
    Node.fieldValues s.nodes.toList Scenario.format.fields.toList = s.entries := by
  have hsmall : ((Cell.uint8 (.uint 3)).node s.small).toValue (.uint 3) = .uint s.small.toUInt64 :=
    h.1
  have hsigned : ((Cell.int8 5).node s.signed).toValue (.int 5) = .int s.signed.toInt64 := h.2
  have hflag : (Cell.bool.node s.flag).toValue .bool = .bool s.flag := Cell.bool_inRange s.flag
  rw [Scenario.format_eq, entries, ← hsmall, ← hsigned, ← hflag]
  rfl

theorem Reading.InRange.fieldValues {r : Reading} (h : r.InRange) :
    Node.fieldValues r.nodes.toList Reading.format.fields.toList = r.entries := by
  have htemperature : ((Cell.int8 7).node r.temperature).toValue (.int 7) =
      .int r.temperature.toInt64 := h
  have hvalid : (Cell.bool.node r.valid).toValue .bool = .bool r.valid := Cell.bool_inRange r.valid
  rw [Reading.format_eq, entries, ← htemperature, ← hvalid]
  rfl

theorem Reading.InRange.toValue {r : Reading} (h : r.InRange) :
    r.node.toValue (.message Reading.format) = .message (Record.ofList r.entries) := by
  rw [← h.fieldValues]
  rfl

theorem Drone.InRange.fieldValues {d : Drone} (h : d.InRange) :
    Node.fieldValues d.nodes.toList Drone.format.fields.toList = d.entries := by
  obtain ⟨hmode, hreadings, hgrid, haltitude⟩ := h
  have hmode' : ((Cell.uint8 (.enum TypedMessage.flightMode)).node d.mode).toValue
      (.enum TypedMessage.flightMode) = .uint d.mode.toUInt64 := hmode
  have haltitude' : ((Cell.uint16 (.uint 12)).node d.altitude).toValue (.uint 12) =
      .uint d.altitude.toUInt64 := haltitude
  have hreadings' : (Node.ofVector Reading.node d.readings).toValue
      (.array (.message Reading.format) 2) =
        .array (d.readings.toList.map fun r => .message (Record.ofList r.entries)) :=
    Node.toValue_ofVector fun i hi => (hreadings i hi).toValue
  rw [Drone.format_eq, entries, ← hmode', ← haltitude', ← hreadings', ← hgrid.toValue]
  rfl

theorem Extremes.InRange.fieldValues {e : Extremes} (h : e.InRange) :
    Node.fieldValues e.nodes.toList Extremes.format.fields.toList = e.entries := by
  obtain ⟨hlow, htype, hrows, hsample, hchannel, hself⟩ := h
  have hlow' : ((Cell.int64 64).node e.low).toValue (.int 64) = .int e.low := hlow
  have htype' : ((Cell.uint64 (.uint 64)).node e.type).toValue (.uint 64) = .uint e.type := htype
  have hchannel' : ((Cell.uint8 (.enum TypedMessage.channel)).node e.channel).toValue
      (.enum TypedMessage.channel) = .uint e.channel.toUInt64 := hchannel
  have hself' : ((Cell.int64 33).node e.self).toValue (.int 33) = .int e.self := hself
  rw [Extremes.format_eq, entries, ← hlow', ← htype', ← hrows.toValue, ← hsample.toValue,
    ← hchannel', ← hself']
  rfl

-- Nothing is nested in a message all of whose fields are scalars.
theorem MessageFormat.Sound.formatAt?_ne_message {m inner : MessageFormat} (h : m.Sound)
    (hscalar : ∀ f ∈ m.fields, f.format.isScalar = true) {place : Place} :
    m.formatAt? place ≠ some (.message inner) := by
  intro hat
  obtain ⟨i, field, indices, -, -, hfield, -, hindices⟩ := h.of_formatAt? rfl hat
  have hs := hscalar field (Array.mem_of_getElem? hfield)
  rw [← (Format.at?_scalar hs hindices).2] at hs
  exact absurd hs Bool.false_ne_true

namespace TypedMessage

theorem toRecord_dynamic {msg : TypedMessage} (h : msg.InRange) :
    msg.dynamic.toRecord = msg.record := by
  cases msg with
  | scenario s => exact congrArg Record.ofList (Scenario.InRange.fieldValues h)
  | reading r => exact congrArg Record.ofList (Reading.InRange.fieldValues h)
  | drone d => exact congrArg Record.ofList (Drone.InRange.fieldValues h)
  | extremes e => exact congrArg Record.ofList (Extremes.InRange.fieldValues h)

theorem inRange_zeroed (msg : TypedMessage) : msg.zeroed.InRange := by
  have hreading : Reading.InRange {} := Cell.signed_inRange_zero (by decide) (by decide) rfl
  have hcells : ∀ {bits n k : Nat},
      (Cell.uint8 (.uint bits)).AllInRange (.replicate n (.replicate k 0)) := by
    intro bits n k a ha b hb
    rw [Vector.getElem_replicate, Vector.getElem_replicate]
    exact Cell.unsigned_inRange_zero (.inl ⟨_, rfl⟩) rfl
  cases msg with
  | scenario s =>
    exact ⟨Cell.unsigned_inRange_zero (.inl ⟨3, rfl⟩) rfl,
      Cell.signed_inRange_zero (by decide) (by decide) rfl⟩
  | reading r => exact hreading
  | drone d =>
    refine ⟨Cell.unsigned_inRange_zero (.inr ⟨_, rfl⟩) rfl, fun i hi => ?_, hcells,
      Cell.unsigned_inRange_zero (.inl ⟨12, rfl⟩) rfl⟩
    have helement : (Vector.replicate 2 ({} : Reading))[i] = {} := Vector.getElem_replicate hi
    exact helement.symm ▸ hreading
  | extremes e =>
    exact ⟨Cell.signed_inRange_zero (by decide) (by decide) rfl,
      Cell.unsigned_inRange_zero (.inl ⟨64, rfl⟩) rfl, hcells, hreading,
      Cell.unsigned_inRange_zero (.inr ⟨_, rfl⟩) rfl,
      Cell.signed_inRange_zero (by decide) (by decide) rfl⟩

/-! ## 2. The simulation -/

theorem exists_slot {msg : TypedMessage} {place : Place} {f : Format}
    (hat : msg.format.formatAt? place = some f) (hs : f.isScalar = true) :
    ∃ (V : Type) (c : Cell V) (held : V) (put : V → TypedMessage), c.format = f ∧
      Slot msg place c held put := by
  cases msg with
  | scenario s => exact scenario_slot hat hs
  | reading r => exact reading_slot hat hs
  | drone d => exact drone_slot hat hs
  | extremes e => exact extremes_slot hat hs

-- The only messages that are nested are readings.
theorem exists_nested {msg : TypedMessage} {place : Place} {m : MessageFormat}
    (hat : msg.format.formatAt? place = some (.message m)) :
    m = Reading.format ∧ ∃ r put, Nested msg place r put := by
  cases msg with
  | scenario s =>
    have hscalar : ∀ f ∈ Scenario.format.fields, f.format.isScalar = true := by
      rw [Scenario.format_eq]
      decide
    exact absurd hat ((format_sound (.scenario s)).formatAt?_ne_message hscalar)
  | reading r =>
    have hscalar : ∀ f ∈ Reading.format.fields, f.format.isScalar = true := by
      rw [Reading.format_eq]
      decide
    exact absurd hat ((format_sound (.reading r)).formatAt?_ne_message hscalar)
  | drone d => exact drone_nested hat
  | extremes e => exact extremes_nested hat

theorem eq_reading {msg : TypedMessage} (h : msg.format = Reading.format) :
    ∃ r, msg = .reading r := by
  cases msg with
  | reading r => exact ⟨r, rfl⟩
  | scenario s => exact absurd (congrArg MessageFormatOf.name h) (by decide : "Scenario" ≠ "Reading")
  | drone d => exact absurd (congrArg MessageFormatOf.name h) (by decide : "Drone" ≠ "Reading")
  | extremes e => exact absurd (congrArg MessageFormatOf.name h) (by decide : "Extremes" ≠ "Reading")

theorem simulates :
    accessor.Simulates DynamicMessage.accessor TypedMessage.format dynamic TypedMessage.InRange where
  sound := format_sound
  getByte {msg place f} hat hs := by
    obtain ⟨V, c, held, put, rfl, hslot⟩ := exists_slot hat hs
    refine ⟨c.word held, hslot.getByte_eq, fun shift => ?_⟩
    show DynamicMessage.getByte msg.dynamic place shift = _
    unfold DynamicMessage.getByte
    rw [hslot.locate?_eq]
    rfl
  setByte {msg place f} shift b hat hs := by
    obtain ⟨V, c, held, put, rfl, hslot⟩ := exists_slot hat hs
    refine ⟨put (c.add held shift b), hslot.setByte_eq shift b, ?_, hslot.format_put _, fun h hb =>
      hslot.inRange_put h _ (hslot.lawful.inRange_add (hslot.inRange h) hb)⟩
    show DynamicMessage.setByte msg.dynamic place shift b = _
    unfold DynamicMessage.setByte
    rw [hslot.locate?_eq, ← hslot.replace_eq, Cell.node, Cell.node, hslot.lawful.pattern_add]
  nested {msg place m} hat := by
    obtain ⟨rfl, r, put, hnested⟩ := exists_nested hat
    have hchild : msg.dynamic.message? place = some (TypedMessage.reading r).dynamic := by
      unfold DynamicMessage.message?
      rw [hnested.locate?_eq]
      rfl
    refine ⟨.reading r, put, msg.dynamic.putMessage place, ?_, hnested.messageMut?_eq, hchild, ?_, rfl,
      hnested.inRange, fun c hc => ?_⟩
    · show (msg.messageMut? place >>= _) = _
      rw [hnested.messageMut?_eq]
      rfl
    · show (msg.dynamic.message? place).map _ = _
      rw [hchild]
      rfl
    · obtain ⟨r', rfl⟩ := eq_reading hc
      have hput := hnested.replace_eq r'
      refine ⟨hput, ?_, fun h hr => hnested.inRange_put h r' hr⟩
      have hformat := congrArg DynamicMessage.format hput
      rw [DynamicMessage.replace_format] at hformat
      exact hformat.symm

/-! ## 3. Decoding -/

-- A message of a kind is decoded with the outcome of the schema, and its fields are the record.
theorem decode_eq (kind : TypedMessage) {m : MessageType} (hm : m.format = kind.format)
    (data : List UInt8) (config : CodecConfig) : ∃ logged, kind.decode data config = .ok logged ∧
      m.decode data config = logged.map fun result => Failure.ofExcept (result.map record) := by
  have hkind : kind.zeroed.format = kind.format := by cases kind <;> rfl
  obtain ⟨logged, hA, hB, hkeep⟩ := simulates.decodeInto_eq kind.zeroed data
  rw [hkind] at hA hB hkeep
  have hzeroed := @zeroed_eq CodecError kind
  rw [← hm] at hB hzeroed
  unfold decode MessageType.decode MessageType.decoded
  rw [hA, hzeroed]
  dsimp only
  rw [hB]
  obtain ⟨result, events⟩ := logged
  cases result with
  | error e =>
    refine ⟨⟨.error e, events⟩, rfl, ?_⟩
    show Logged.mk _ (events ++ []) = _
    rw [List.append_nil]
    rfl
  | ok msg =>
    obtain ⟨hformat, hclean⟩ := hkeep msg rfl
    have hrecord := toRecord_dynamic (hclean (inRange_zeroed kind))
    have hverify : msg.format.verify accessor msg config =
        .ok (m.format.verify DynamicMessage.accessor msg.dynamic config : Id _).run := by
      rw [hm, ← hformat]
      exact simulates.checkEnums_eq msg config.unknownEnum
    show ∃ logged, (msg.format.verify accessor msg config >>= _) = _ ∧ _
    rw [hverify]
    refine ⟨_, rfl, ?_⟩
    show Logged.mk _ _ = Logged.mk _ _
    congr 1
    simp only [Failure.ofExcept, Logged.map, Except.map, hrecord]
    cases (m.format.verify DynamicMessage.accessor msg.dynamic config : Id _).run.value <;> rfl

/-- A typed message of the drone protocol, whatever its fields hold, does what the dynamic message
of the compiled schema does that holds their patterns, cut to the widths of the fields.  It is
encoded and checked the same; a byte that is added to any value, here or in a nested message, and
bytes that are decoded into it make of it what they make of the dynamic message.  Bytes are decoded
with the outcome of the schema, and the fields of the message are then the record. -/
theorem simulates_dynamic : ∃ schema, (Schema.compile droneSchema).value = .ok schema ∧
    ∀ s : TypedMessage, ∃ m, schema.message? s.format.name = some m ∧
      s.dynamic.format = m.format ∧
      (DynamicMessage.zeroed m.format : Except (Failure CodecError) _) = .ok s.zeroed.dynamic ∧
      s.encode = .ok (m.format.encode DynamicMessage.accessor s.dynamic).run ∧
      (∀ policy, s.format.checkEnums accessor s policy =
        .ok (m.format.checkEnums DynamicMessage.accessor s.dynamic policy).run) ∧
      (∀ trail inner place f shift b, m.format.enter? trail = some inner →
        inner.formatAt? place = some f → f.isScalar = true → ∃ s',
          accessor.enterMut (fun c => do return (← accessor.setByte c place shift b, ())) trail s =
            .ok (some (s', ())) ∧
          (DynamicMessage.accessor.enterMut (fun c => do
            return (← DynamicMessage.accessor.setByte c place shift b, ())) trail s.dynamic).run =
              some (s'.dynamic, ())) ∧
      (∀ data, ∃ logged, s.format.decodeInto accessor s data = .ok logged ∧
        (m.format.decodeInto DynamicMessage.accessor s.dynamic data).run =
          logged.map (Except.map dynamic)) ∧
      ∀ data config, ∃ logged, s.decode data config = .ok logged ∧
        m.decode data config = logged.map fun result => Failure.ofExcept (result.map record) := by
  obtain ⟨schema, hschema, hall⟩ := exists_type
  refine ⟨schema, hschema, fun s => ?_⟩
  obtain ⟨m, hfind, -, hm⟩ := hall s
  refine ⟨m, hfind, hm.symm, ?_, ?_, fun policy => ?_, ?_, fun data => ?_, decode_eq s hm⟩
  · rw [hm]
    exact zeroed_eq s
  · rw [hm]
    exact simulates.encode_eq s
  · rw [hm]
    exact simulates.checkEnums_eq s policy
  · intro trail inner place f shift b hinner hat hs
    rw [hm] at hinner
    obtain ⟨s', hA, hB, -⟩ := simulates.enterMut_setByte hinner hat hs shift b
    exact ⟨s', hA, hB⟩
  · obtain ⟨logged, hA, hB, -⟩ := simulates.decodeInto_eq s data
    rw [hm]
    exact ⟨logged, hA, hB⟩

theorem simulates_dynamic_sample : ∃ s',
    accessor.enterMut (fun c => do return (← accessor.setByte c ⟨1, []⟩ 3 255, ())) [⟨4, []⟩]
      (.extremes { channel := 200 }) = .ok (some (s', ())) ∧
    (DynamicMessage.accessor.enterMut (fun c => do
      return (← DynamicMessage.accessor.setByte c ⟨1, []⟩ 3 255, ())) [⟨4, []⟩]
        (dynamic (.extremes { channel := 200 }))).run = some (s'.dynamic, ()) := by
  obtain ⟨schema, -, hall⟩ := simulates_dynamic
  obtain ⟨m, -, hformat, -, -, -, hset, -⟩ := hall (.extremes { channel := 200 })
  refine hset [⟨4, []⟩] Reading.format ⟨1, []⟩ (.int 7) 3 255 ?_ ?_ rfl
  · rw [← hformat]
    show Extremes.format.enter? [⟨4, []⟩] = some Reading.format
    rw [Extremes.format_eq]
    rfl
  · rw [Reading.format_eq]
    rfl

end TypedMessage

end Bitwire
