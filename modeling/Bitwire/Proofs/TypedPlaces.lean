import Bitwire.Proofs.MachineTypes
import Bitwire.Proofs.StrictDecoding
import Bitwire.Typed.Accessor

/-!
# Places of typed messages

Every typed message of the drone protocol stands for a dynamic message of the compiled schema.  At
each place that the format has, the two hold the same value or the same nested message, and change
it alike.
-/

namespace Bitwire

/-! ## 1. The protocol as a schema -/

/-- The drone protocol as it is written down. -/
def droneSchema : SchemaDef where
  name := "drone"
  constants := [⟨"maxSpeed", .int 120⟩, ⟨"LABEL", .string "a \"quoted\" label"⟩]
  aliases := [⟨"Celsius", .int 7⟩, ⟨"Row", .array (.uint 5) 3⟩, ⟨"Sample", .named "Reading"⟩]
  enums := [
    { name := "FlightMode", bits := 2,
      fields := [⟨"FLIGHT_MODE_IDLE", 0⟩, ⟨"FLIGHT_MODE_FLY", 2⟩] },
    { name := "Channel", bits := 3, extensible := true, fields := [] }]
  messages := [
    ⟨"Scenario", [⟨3, "flag", .bool⟩, ⟨1, "small", .uint 3⟩, ⟨2, "signed", .int 5⟩]⟩,
    ⟨"Reading", [⟨1, "temperature", .named "Celsius"⟩, ⟨2, "valid", .bool⟩]⟩,
    ⟨"Drone", [⟨3, "grid", .array (.array (.uint 3) 2) 2⟩, ⟨1, "mode", .named "FlightMode"⟩,
      ⟨2, "readings", .array (.named "Reading") 2⟩, ⟨4, "altitude", .uint 12⟩]⟩,
    ⟨"Extremes", [⟨2, "type", .uint 64⟩, ⟨1, "low", .int 64⟩, ⟨3, "rows", .array (.named "Row") 2⟩,
      ⟨4, "sample", .named "Sample"⟩, ⟨5, "channel", .named "Channel"⟩, ⟨6, "self", .int 33⟩]⟩]

-- The schema makes the formats of the typed messages.
theorem compile_droneSchema : (Schema.compile droneSchema).value.toOption.map
    (fun schema => schema.messages.map fun m => (m.name, m.format)) =
      some [("Scenario", Scenario.format), ("Reading", Reading.format), ("Drone", Drone.format),
        ("Extremes", Extremes.format)] := by
  cbv

theorem TypedMessage.exists_type : ∃ schema, (Schema.compile droneSchema).value = .ok schema ∧
    ∀ msg : TypedMessage, ∃ m, schema.message? msg.format.name = some m ∧ m ∈ schema.messages ∧
      m.format = msg.format := by
  have hcompile := compile_droneSchema
  cases hschema : (Schema.compile droneSchema).value with
  | error e =>
    rw [hschema] at hcompile
    cases hcompile
  | ok schema =>
    rw [hschema] at hcompile
    have hlist : schema.messages.map (fun m => (m.name, m.format)) =
        [("Scenario", Scenario.format), ("Reading", Reading.format), ("Drone", Drone.format),
          ("Extremes", Extremes.format)] := Option.some.inj hcompile
    refine ⟨schema, rfl, fun msg => ?_⟩
    have hfind : (schema.message? msg.format.name).map (fun m => (m.name, m.format)) =
        some (msg.format.name, msg.format) := by
      unfold Schema.message?
      have hmap := @List.find?_map _ _ (fun entry => entry.1 == msg.format.name)
        (fun m : MessageType => (m.name, m.format)) schema.messages
      rw [hlist] at hmap
      cases msg <;> exact hmap.symm.trans rfl
    obtain ⟨m, hm, hformat⟩ := Option.map_eq_some_iff.mp hfind
    exact ⟨m, hm, List.mem_of_find?_eq_some hm, congrArg Prod.snd hformat⟩

theorem TypedMessage.format_sound (msg : TypedMessage) : msg.format.Sound := by
  obtain ⟨schema, hschema, hall⟩ := exists_type
  obtain ⟨m, -, hm, hformat⟩ := hall msg
  rw [← hformat]
  exact (Schema.compile_made hschema hm).format.1

theorem Scenario.format_eq : Scenario.format =
    ⟨"Scenario", #[⟨1, "small", 0, .uint 3⟩, ⟨2, "signed", 3, .int 5⟩, ⟨3, "flag", 8, .bool⟩], 9⟩ := by
  cbv

theorem Reading.format_eq : Reading.format =
    ⟨"Reading", #[⟨1, "temperature", 0, .int 7⟩, ⟨2, "valid", 7, .bool⟩], 8⟩ := by
  cbv

theorem Drone.format_eq : Drone.format = ⟨"Drone",
    #[⟨1, "mode", 0, .enum TypedMessage.flightMode⟩,
      ⟨2, "readings", 2, .array (.message Reading.format) 2⟩,
      ⟨3, "grid", 18, .array (.array (.uint 3) 2) 2⟩, ⟨4, "altitude", 30, .uint 12⟩], 42⟩ := by
  cbv

theorem Extremes.format_eq : Extremes.format = ⟨"Extremes",
    #[⟨1, "low", 0, .int 64⟩, ⟨2, "type", 64, .uint 64⟩,
      ⟨3, "rows", 128, .array (.array (.uint 5) 3) 2⟩,
      ⟨4, "sample", 158, .message Reading.format⟩, ⟨5, "channel", 166, .enum TypedMessage.channel⟩,
      ⟨6, "self", 169, .int 33⟩], 202⟩ := by
  cbv

/-! ## 2. Typed messages as dynamic messages -/

/-- The stored form of an array. -/
def Node.ofVector {α : Type} {n : Nat} (node : α → Node) (v : Vector α n) : Node :=
  .array (v.toArray.map node)

section

variable {α : Type} {n : Nat} {node : α → Node} {v : Vector α n} {i : Nat}

theorem Node.follow?_ofVector (hi : i < n) (rest : List Nat) (element : Format) (capacity : Nat) :
    follow? (i :: rest) (ofVector node v) (.array element capacity) =
      follow? rest (node v[i]) element := by
  unfold ofVector
  rw [follow?, Array.getElem?_map, Vector.getElem?_toArray, Vector.getElem?_eq_getElem hi]
  rfl

theorem Node.replaceAt_ofVector (hi : i < n) {rest : List Nat} {new : Node} {a : α}
    (h : replaceAt rest (node v[i]) new = node a) :
    replaceAt (i :: rest) (ofVector node v) new = ofVector node (TypedMessage.update v i a) := by
  unfold ofVector TypedMessage.update
  rw [replaceAt]
  refine congrArg Node.array (Array.ext (by simp) fun k hk hk' => ?_)
  simp only [Array.size_modify, Array.size_map, Vector.size_toArray] at hk
  rw [Array.getElem_modify, Array.getElem_map, Array.getElem_map, Vector.getElem_toArray,
    Vector.getElem_toArray, Vector.getElem_setIfInBounds]
  split
  next heq =>
    subst heq
    exact h
  next => rfl

end

/-- The stored fields of a scenario. -/
def Scenario.nodes (s : Scenario) : Array Node :=
  #[(Cell.uint8 (.uint 3)).node s.small, (Cell.int8 5).node s.signed, Cell.bool.node s.flag]

/-- The stored fields of a reading. -/
def Reading.nodes (r : Reading) : Array Node :=
  #[(Cell.int8 7).node r.temperature, Cell.bool.node r.valid]

/-- The stored form of a reading in another message. -/
def Reading.node (r : Reading) : Node :=
  .message Reading.format r.nodes

/-- The stored fields of a drone. -/
def Drone.nodes (d : Drone) : Array Node :=
  #[(Cell.uint8 (.enum TypedMessage.flightMode)).node d.mode,
    .ofVector Reading.node d.readings,
    .ofVector (.ofVector (Cell.uint8 (.uint 3)).node) d.grid,
    (Cell.uint16 (.uint 12)).node d.altitude]

/-- The stored fields of extremes. -/
def Extremes.nodes (e : Extremes) : Array Node :=
  #[(Cell.int64 64).node e.low, (Cell.uint64 (.uint 64)).node e.type,
    .ofVector (.ofVector (Cell.uint8 (.uint 5)).node) e.rows, e.sample.node,
    (Cell.uint8 (.enum TypedMessage.channel)).node e.channel, (Cell.int64 33).node e.self]

namespace TypedMessage

/-- The stored fields of a message: of every field the pattern, cut to the width of the field. -/
def nodes : TypedMessage → Array Node
  | .scenario s => s.nodes
  | .reading r => r.nodes
  | .drone d => d.nodes
  | .extremes e => e.nodes

/-- The dynamic message that a typed message stands for. -/
def dynamic (msg : TypedMessage) : DynamicMessage :=
  ⟨msg.format, msg.nodes⟩

theorem isAllocatable_format (msg : TypedMessage) : msg.format.isAllocatable = true := by
  cases msg <;> cbv

-- The dynamic message that is made for a kind holds what a typed message of the kind starts with.
theorem zeroed_eq {ε : Type} (msg : TypedMessage) :
    (DynamicMessage.zeroed msg.format : Except (Failure ε) DynamicMessage) =
      .ok msg.zeroed.dynamic := by
  have hblank : DynamicMessage.blank msg.format = msg.zeroed.dynamic := by
    cases msg <;> cbv
  rw [DynamicMessage.zeroed_of (isAllocatable_format msg), hblank]

end TypedMessage

/-! ## 3. Messages in range -/

-- What holds of all elements of an array still does if it holds of the new one.
theorem TypedMessage.forall_update {α : Type} {n : Nat} {P : α → Prop} {v : Vector α n} {i : Nat}
    {a : α} (hv : ∀ (k : Nat) (hk : k < n), P v[k]) (ha : P a) :
    ∀ (k : Nat) (hk : k < n), P (update v i a)[k] := by
  intro k hk
  unfold update
  rw [Vector.getElem_setIfInBounds]
  split
  next => exact ha
  next => exact hv k hk

/-- Arrays of arrays whose elements are in range. -/
def Cell.AllInRange {V : Type} {n k : Nat} (c : Cell V) (rows : Vector (Vector V k) n) : Prop :=
  ∀ (a : Nat) (ha : a < n) (b : Nat) (hb : b < k), c.InRange rows[a][b]

theorem Cell.AllInRange.update {V : Type} {n k : Nat} {c : Cell V} {rows : Vector (Vector V k) n}
    (h : c.AllInRange rows) {a : Nat} (ha : a < n) (b : Nat) {v : V} (hv : c.InRange v) :
    c.AllInRange (TypedMessage.update rows a (TypedMessage.update rows[a] b v)) :=
  @TypedMessage.forall_update _ n (fun row => ∀ (b : Nat) (hb : b < k), c.InRange row[b]) rows a _ h
    (@TypedMessage.forall_update _ k c.InRange rows[a] b v (h a ha) hv)

/-- Scenarios whose fields are in range. -/
def Scenario.InRange (s : Scenario) : Prop :=
  (Cell.uint8 (.uint 3)).InRange s.small ∧ (Cell.int8 5).InRange s.signed

/-- Readings whose fields are in range. -/
def Reading.InRange (r : Reading) : Prop :=
  (Cell.int8 7).InRange r.temperature

/-- Drones whose fields are in range. -/
def Drone.InRange (d : Drone) : Prop :=
  (Cell.uint8 (.enum TypedMessage.flightMode)).InRange d.mode ∧
    (∀ (i : Nat) (hi : i < 2), d.readings[i].InRange) ∧
    (Cell.uint8 (.uint 3)).AllInRange d.grid ∧
    (Cell.uint16 (.uint 12)).InRange d.altitude

/-- Extremes whose fields are in range. -/
def Extremes.InRange (e : Extremes) : Prop :=
  (Cell.int64 64).InRange e.low ∧ (Cell.uint64 (.uint 64)).InRange e.type ∧
    (Cell.uint8 (.uint 5)).AllInRange e.rows ∧
    e.sample.InRange ∧ (Cell.uint8 (.enum TypedMessage.channel)).InRange e.channel ∧
    (Cell.int64 33).InRange e.self

/-- Typed messages whose fields are in range. -/
def TypedMessage.InRange : TypedMessage → Prop
  | .scenario s => s.InRange
  | .reading r => r.InRange
  | .drone d => d.InRange
  | .extremes e => e.InRange

/-! ## 4. Where values are held -/

namespace Format

theorem at?_scalar {f g : Format} {indices : List Nat} (hs : f.isScalar = true)
    (h : f.at? indices = some g) : indices = [] ∧ g = f := by
  cases indices with
  | nil =>
    rw [at?] at h
    exact ⟨rfl, (Option.some.inj h).symm⟩
  | cons i rest =>
    cases f with
    | array | message => exact absurd hs Bool.false_ne_true
    | bool | int | uint | enum => cases h

theorem at?_message {m : MessageFormat} {g : Format} {indices : List Nat}
    (h : (Format.message m).at? indices = some g) : indices = [] ∧ g = .message m := by
  cases indices with
  | nil =>
    rw [at?] at h
    exact ⟨rfl, (Option.some.inj h).symm⟩
  | cons i rest => cases h

theorem at?_array {element g : Format} {capacity : Nat} {indices : List Nat}
    (h : (Format.array element capacity).at? indices = some g)
    (hg : ∀ e c, g ≠ .array e c) :
    ∃ i rest, indices = i :: rest ∧ i < capacity ∧ element.at? rest = some g := by
  cases indices with
  | nil =>
    rw [at?] at h
    exact absurd (Option.some.inj h).symm (hg _ _)
  | cons i rest =>
    rw [at?] at h
    split at h
    next hi => exact ⟨i, rest, rfl, hi, h⟩
    next => cases h

end Format

-- A place leads through one of the fields that a format is known to have.
theorem MessageFormat.Sound.of_formatAt? {m : MessageFormat} (h : m.Sound) {place : Place}
    {g : Format} {fields : Array FieldFormat} (hfields : m.fields = fields)
    (hat : m.formatAt? place = some g) : ∃ i field indices, place = ⟨field.number, indices⟩ ∧
      m.fieldIndex? field.number = some i ∧ m.fields[i]? = some field ∧
      fields[i]? = some field ∧ field.format.at? indices = some g := by
  obtain ⟨number, indices⟩ := place
  obtain ⟨field, hfind, hindices⟩ := Option.bind_eq_some_iff.mp hat
  have hnumber := List.find?_some hfind
  obtain rfl : field.number = number := eq_of_beq hnumber
  rw [h.find?_eq] at hfind
  obtain ⟨i, hi, hfield⟩ := Option.bind_eq_some_iff.mp hfind
  rw [Array.getElem?_toList] at hfield
  exact ⟨i, field, indices, rfl, hi, hfield, hfields ▸ hfield, hindices⟩

namespace TypedMessage

/-- A place of a typed message at which a cell holds a value that may be put in. -/
structure Slot (msg : TypedMessage) (place : Place) {V : Type} (c : Cell V) (held : V)
    (put : V → TypedMessage) : Prop where
  lawful : c.Lawful
  getByte_eq : ∀ shift, msg.getByte place shift = .ok (Pattern.byteAt (c.word held) shift)
  setByte_eq : ∀ shift b, msg.setByte place shift b = .ok (put (c.add held shift b))
  locate?_eq : msg.dynamic.locate? place = some (c.node held, c.format)
  replace_eq : ∀ v, msg.dynamic.replace place (c.node v) = (put v).dynamic
  format_put : ∀ v, (put v).format = msg.format
  inRange : msg.InRange → c.InRange held
  inRange_put : msg.InRange → ∀ v, c.InRange v → (put v).InRange

section

variable {msg : TypedMessage} {number : UInt16} {i : Nat} {field : FieldFormat} {V : Type}
  {c : Cell V}

-- A field that is no array holds its value itself.
theorem Slot.of_field {held : V} {put : V → TypedMessage}
    (hi : msg.format.fieldIndex? number = some i) (hfield : msg.format.fields[i]? = some field)
    (hformat : field.format = c.format) (hnode : msg.nodes[i]? = some (c.node held))
    (hput : ∀ v, (put v).dynamic = ⟨msg.format, msg.nodes.modify i fun _ => c.node v⟩)
    (hc : c.Lawful)
    (hget : ∀ shift, msg.getByte ⟨number, []⟩ shift = .ok (Pattern.byteAt (c.word held) shift))
    (hset : ∀ shift b, msg.setByte ⟨number, []⟩ shift b = .ok (put (c.add held shift b)))
    (hrange : msg.InRange → c.InRange held ∧ ∀ v, c.InRange v → (put v).InRange) :
    Slot msg ⟨number, []⟩ c held put where
  lawful := hc
  getByte_eq := hget
  setByte_eq := hset
  locate?_eq := by
    unfold dynamic
    rw [DynamicMessage.locate?_of hi hnode hfield, hformat, Node.follow?]
  replace_eq v := by
    unfold dynamic at hput ⊢
    rw [DynamicMessage.replace_of hi, hput]
    simp only [Node.replaceAt]
  format_put v := congrArg DynamicMessage.format (hput v)
  inRange h := (hrange h).1
  inRange_put h := (hrange h).2

-- An element of an array of arrays is held by a place with two indices.
theorem Slot.of_grid {n k a b : Nat} {rows : Vector (Vector V k) n} {put : V → TypedMessage}
    (ha : a < n) (hb : b < k) (hi : msg.format.fieldIndex? number = some i)
    (hfield : msg.format.fields[i]? = some field)
    (hformat : field.format = .array (.array c.format k) n)
    (hnode : msg.nodes[i]? = some (.ofVector (.ofVector c.node) rows))
    (hput : ∀ v, (put v).dynamic = ⟨msg.format, msg.nodes.modify i fun _ =>
      .ofVector (.ofVector c.node) (update rows a (update rows[a] b v))⟩)
    (hc : c.Lawful)
    (hget : ∀ shift, msg.getByte ⟨number, [a, b]⟩ shift =
      .ok (Pattern.byteAt (c.word rows[a][b]) shift))
    (hset : ∀ shift b', msg.setByte ⟨number, [a, b]⟩ shift b' =
      .ok (put (c.add rows[a][b] shift b')))
    (hrange : msg.InRange → c.InRange rows[a][b] ∧ ∀ v, c.InRange v → (put v).InRange) :
    Slot msg ⟨number, [a, b]⟩ c rows[a][b] put where
  lawful := hc
  getByte_eq := hget
  setByte_eq := hset
  locate?_eq := by
    unfold dynamic
    rw [DynamicMessage.locate?_of hi hnode hfield, hformat, Node.follow?_ofVector ha,
      Node.follow?_ofVector hb, Node.follow?]
  replace_eq v := by
    unfold dynamic at hput ⊢
    rw [DynamicMessage.replace_of hi, hput]
    refine congrArg (DynamicMessage.mk _) (modify_congr hnode ?_)
    exact Node.replaceAt_ofVector ha (Node.replaceAt_ofVector hb (by rw [Node.replaceAt]))
  format_put v := congrArg DynamicMessage.format (hput v)
  inRange h := (hrange h).1
  inRange_put h := (hrange h).2

end

theorem element_bind {α β : Type} {n i : Nat} (v : Vector α n) (hi : i < n)
    (next : α → Except IndexFault β) : (element v i >>= next) = next v[i] := by
  unfold element
  rw [dif_pos hi]
  rfl

theorem scenario_slot {s : Scenario} {place : Place} {f : Format}
    (hat : Scenario.format.formatAt? place = some f) (hs : f.isScalar = true) :
    ∃ (V : Type) (c : Cell V) (held : V) (put : V → TypedMessage), c.format = f ∧
      Slot (.scenario s) place c held put := by
  have hsound : Scenario.format.Sound := format_sound (.scenario s)
  have hfields : Scenario.format.fields =
      #[⟨1, "small", 0, .uint 3⟩, ⟨2, "signed", 3, .int 5⟩, ⟨3, "flag", 8, .bool⟩] :=
    congrArg MessageFormatOf.fields Scenario.format_eq
  obtain ⟨i, field, indices, rfl, hi, hfield, hfield', hindices⟩ := hsound.of_formatAt? hfields hat
  obtain _ | _ | _ | i := i
  · obtain rfl := Option.some.inj hfield'
    obtain ⟨rfl, rfl⟩ := Format.at?_scalar rfl hindices
    exact ⟨_, .uint8 (.uint 3), _, fun v => .scenario { s with small := v }, rfl,
      .of_field hi hfield rfl rfl (fun _ => rfl) (Cell.uint8_lawful (.inl ⟨3, rfl⟩) (by decide))
        (fun _ => rfl) (fun _ _ => rfl) fun h => ⟨h.1, fun v hv => ⟨hv, h.2⟩⟩⟩
  · obtain rfl := Option.some.inj hfield'
    obtain ⟨rfl, rfl⟩ := Format.at?_scalar rfl hindices
    exact ⟨_, .int8 5, _, fun v => .scenario { s with signed := v }, rfl,
      .of_field hi hfield rfl rfl (fun _ => rfl) (Cell.int8_lawful (by decide) (by decide))
        (fun _ => rfl) (fun _ _ => rfl) fun h => ⟨h.2, fun v hv => ⟨h.1, hv⟩⟩⟩
  · obtain rfl := Option.some.inj hfield'
    obtain ⟨rfl, rfl⟩ := Format.at?_scalar rfl hindices
    exact ⟨_, .bool, _, fun v => .scenario { s with flag := v }, rfl,
      .of_field hi hfield rfl rfl (fun _ => rfl) Cell.bool_lawful
        (fun _ => rfl) (fun _ _ => rfl) fun h => ⟨Cell.bool_inRange _, fun v _ => h⟩⟩
  · cases hfield'

theorem reading_slot {r : Reading} {place : Place} {f : Format}
    (hat : Reading.format.formatAt? place = some f) (hs : f.isScalar = true) :
    ∃ (V : Type) (c : Cell V) (held : V) (put : V → TypedMessage), c.format = f ∧
      Slot (.reading r) place c held put := by
  have hsound : Reading.format.Sound := format_sound (.reading r)
  have hfields : Reading.format.fields = #[⟨1, "temperature", 0, .int 7⟩, ⟨2, "valid", 7, .bool⟩] :=
    congrArg MessageFormatOf.fields Reading.format_eq
  obtain ⟨i, field, indices, rfl, hi, hfield, hfield', hindices⟩ := hsound.of_formatAt? hfields hat
  obtain _ | _ | i := i
  · obtain rfl := Option.some.inj hfield'
    obtain ⟨rfl, rfl⟩ := Format.at?_scalar rfl hindices
    exact ⟨_, .int8 7, _, fun v => .reading { r with temperature := v }, rfl,
      .of_field hi hfield rfl rfl (fun _ => rfl) (Cell.int8_lawful (by decide) (by decide))
        (fun _ => rfl) (fun _ _ => rfl) fun h => ⟨h, fun v hv => hv⟩⟩
  · obtain rfl := Option.some.inj hfield'
    obtain ⟨rfl, rfl⟩ := Format.at?_scalar rfl hindices
    exact ⟨_, .bool, _, fun v => .reading { r with valid := v }, rfl,
      .of_field hi hfield rfl rfl (fun _ => rfl) Cell.bool_lawful
        (fun _ => rfl) (fun _ _ => rfl) fun h => ⟨Cell.bool_inRange _, fun v _ => h⟩⟩
  · cases hfield'

theorem drone_slot {d : Drone} {place : Place} {f : Format}
    (hat : Drone.format.formatAt? place = some f) (hs : f.isScalar = true) :
    ∃ (V : Type) (c : Cell V) (held : V) (put : V → TypedMessage), c.format = f ∧
      Slot (.drone d) place c held put := by
  have hsound : Drone.format.Sound := format_sound (.drone d)
  have hfields := congrArg MessageFormatOf.fields Drone.format_eq
  dsimp only at hfields
  have harray : ∀ e c, f ≠ .array e c := fun e c h => by
    rw [h] at hs
    exact absurd hs Bool.false_ne_true
  obtain ⟨i, field, indices, rfl, hi, hfield, hfield', hindices⟩ := hsound.of_formatAt? hfields hat
  obtain _ | _ | _ | _ | i := i
  · obtain rfl := Option.some.inj hfield'
    obtain ⟨rfl, rfl⟩ := Format.at?_scalar rfl hindices
    exact ⟨_, .uint8 (.enum flightMode), _, fun v => .drone { d with mode := v }, rfl,
      .of_field hi hfield rfl rfl (fun _ => rfl) (Cell.uint8_lawful (.inr ⟨_, rfl⟩) (by decide))
        (fun _ => rfl) (fun _ _ => rfl) fun h => ⟨h.1, fun v hv => ⟨hv, h.2⟩⟩⟩
  · obtain rfl := Option.some.inj hfield'
    obtain ⟨a, rest, -, -, hrest⟩ := Format.at?_array hindices harray
    obtain ⟨-, rfl⟩ := Format.at?_message hrest
    exact absurd hs Bool.false_ne_true
  · obtain rfl := Option.some.inj hfield'
    obtain ⟨a, rest, rfl, ha, hrest⟩ := Format.at?_array hindices harray
    obtain ⟨b, rest, rfl, hb, hrest⟩ := Format.at?_array hrest harray
    obtain ⟨rfl, rfl⟩ := Format.at?_scalar rfl hrest
    refine ⟨_, .uint8 (.uint 3), _,
      fun v => .drone { d with grid := update d.grid a (update d.grid[a] b v) }, rfl,
      .of_grid ha hb hi hfield rfl rfl (fun _ => rfl) (Cell.uint8_lawful (.inl ⟨3, rfl⟩) (by decide))
        (fun shift => ?_) (fun shift b' => ?_) fun h => ?_⟩
    · show (element d.grid a >>= _) = _
      rw [element_bind _ ha]
      show (element d.grid[a] b >>= _) = _
      rw [element_bind _ hb]
      rfl
    · show ((element d.grid a >>= _) >>= _) = _
      rw [element_bind _ ha]
      show ((element d.grid[a] b >>= _) >>= _) = _
      rw [element_bind _ hb]
      rfl
    · obtain ⟨hmode, hreadings, hgrid, haltitude⟩ := h
      exact ⟨hgrid a ha b hb, fun v hv => ⟨hmode, hreadings, hgrid.update ha b hv, haltitude⟩⟩
  · obtain rfl := Option.some.inj hfield'
    obtain ⟨rfl, rfl⟩ := Format.at?_scalar rfl hindices
    exact ⟨_, .uint16 (.uint 12), _, fun v => .drone { d with altitude := v }, rfl,
      .of_field hi hfield rfl rfl (fun _ => rfl) (Cell.uint16_lawful (.inl ⟨12, rfl⟩) (by decide))
        (fun _ => rfl) (fun _ _ => rfl)
        fun h => ⟨h.2.2.2, fun v hv => ⟨h.1, h.2.1, h.2.2.1, hv⟩⟩⟩
  · cases hfield'

theorem extremes_slot {e : Extremes} {place : Place} {f : Format}
    (hat : Extremes.format.formatAt? place = some f) (hs : f.isScalar = true) :
    ∃ (V : Type) (c : Cell V) (held : V) (put : V → TypedMessage), c.format = f ∧
      Slot (.extremes e) place c held put := by
  have hsound : Extremes.format.Sound := format_sound (.extremes e)
  have hfields := congrArg MessageFormatOf.fields Extremes.format_eq
  dsimp only at hfields
  have harray : ∀ e c, f ≠ .array e c := fun e c h => by
    rw [h] at hs
    exact absurd hs Bool.false_ne_true
  obtain ⟨i, field, indices, rfl, hi, hfield, hfield', hindices⟩ := hsound.of_formatAt? hfields hat
  obtain _ | _ | _ | _ | _ | _ | i := i
  · obtain rfl := Option.some.inj hfield'
    obtain ⟨rfl, rfl⟩ := Format.at?_scalar rfl hindices
    exact ⟨_, .int64 64, _, fun v => .extremes { e with low := v }, rfl,
      .of_field hi hfield rfl rfl (fun _ => rfl) (Cell.int64_lawful (by decide) (by decide))
        (fun _ => rfl) (fun _ _ => rfl) fun h => ⟨h.1, fun v hv => ⟨hv, h.2⟩⟩⟩
  · obtain rfl := Option.some.inj hfield'
    obtain ⟨rfl, rfl⟩ := Format.at?_scalar rfl hindices
    exact ⟨_, .uint64 (.uint 64), _, fun v => .extremes { e with type := v }, rfl,
      .of_field hi hfield rfl rfl (fun _ => rfl) (Cell.uint64_lawful (.inl ⟨64, rfl⟩) (by decide))
        (fun _ => rfl) (fun _ _ => rfl) fun h => ⟨h.2.1, fun v hv => ⟨h.1, hv, h.2.2⟩⟩⟩
  · obtain rfl := Option.some.inj hfield'
    obtain ⟨a, rest, rfl, ha, hrest⟩ := Format.at?_array hindices harray
    obtain ⟨b, rest, rfl, hb, hrest⟩ := Format.at?_array hrest harray
    obtain ⟨rfl, rfl⟩ := Format.at?_scalar rfl hrest
    refine ⟨_, .uint8 (.uint 5), _,
      fun v => .extremes { e with rows := update e.rows a (update e.rows[a] b v) }, rfl,
      .of_grid ha hb hi hfield rfl rfl (fun _ => rfl) (Cell.uint8_lawful (.inl ⟨5, rfl⟩) (by decide))
        (fun shift => ?_) (fun shift b' => ?_) fun h => ?_⟩
    · show (element e.rows a >>= _) = _
      rw [element_bind _ ha]
      show (element e.rows[a] b >>= _) = _
      rw [element_bind _ hb]
      rfl
    · show ((element e.rows a >>= _) >>= _) = _
      rw [element_bind _ ha]
      show ((element e.rows[a] b >>= _) >>= _) = _
      rw [element_bind _ hb]
      rfl
    · obtain ⟨hlow, htype, hrows, hrest⟩ := h
      exact ⟨hrows a ha b hb, fun v hv => ⟨hlow, htype, hrows.update ha b hv, hrest⟩⟩
  · obtain rfl := Option.some.inj hfield'
    obtain ⟨-, rfl⟩ := Format.at?_message hindices
    exact absurd hs Bool.false_ne_true
  · obtain rfl := Option.some.inj hfield'
    obtain ⟨rfl, rfl⟩ := Format.at?_scalar rfl hindices
    exact ⟨_, .uint8 (.enum channel), _, fun v => .extremes { e with channel := v }, rfl,
      .of_field hi hfield rfl rfl (fun _ => rfl) (Cell.uint8_lawful (.inr ⟨_, rfl⟩) (by decide))
        (fun _ => rfl) (fun _ _ => rfl) fun h => ⟨h.2.2.2.2.1,
          fun v hv => ⟨h.1, h.2.1, h.2.2.1, h.2.2.2.1, hv, h.2.2.2.2.2⟩⟩⟩
  · obtain rfl := Option.some.inj hfield'
    obtain ⟨rfl, rfl⟩ := Format.at?_scalar rfl hindices
    exact ⟨_, .int64 33, _, fun v => .extremes { e with self := v }, rfl,
      .of_field hi hfield rfl rfl (fun _ => rfl) (Cell.int64_lawful (by decide) (by decide))
        (fun _ => rfl) (fun _ _ => rfl) fun h => ⟨h.2.2.2.2.2,
          fun v hv => ⟨h.1, h.2.1, h.2.2.1, h.2.2.2.1, h.2.2.2.2.1, hv⟩⟩⟩
  · cases hfield'

/-! ## 5. Where readings are nested -/

/-- Puts a changed reading back; a message of another kind changes nothing. -/
def putReading (whole : TypedMessage) (put : Reading → TypedMessage) : TypedMessage → TypedMessage
  | .reading r => put r
  | _ => whole

/-- A place of a typed message at which a reading is nested that may be put back. -/
structure Nested (msg : TypedMessage) (place : Place) (r : Reading)
    (put : TypedMessage → TypedMessage) : Prop where
  messageMut?_eq : msg.messageMut? place = .ok (some (.reading r, put))
  locate?_eq : msg.dynamic.locate? place = some (r.node, .message Reading.format)
  replace_eq : ∀ r' : Reading, msg.dynamic.replace place r'.node = (put (.reading r')).dynamic
  inRange : msg.InRange → r.InRange
  inRange_put : msg.InRange → ∀ r' : Reading, r'.InRange → (put (.reading r')).InRange

theorem drone_nested {d : Drone} {place : Place} {m : MessageFormat}
    (hat : Drone.format.formatAt? place = some (.message m)) :
    m = Reading.format ∧ ∃ r put, Nested (.drone d) place r put := by
  have hsound : Drone.format.Sound := format_sound (.drone d)
  have hfields := congrArg MessageFormatOf.fields Drone.format_eq
  dsimp only at hfields
  obtain ⟨i, field, indices, rfl, hi, hfield, hfield', hindices⟩ := hsound.of_formatAt? hfields hat
  obtain _ | _ | _ | _ | i := i
  · obtain rfl := Option.some.inj hfield'
    cases (Format.at?_scalar rfl hindices).2
  · obtain rfl := Option.some.inj hfield'
    obtain ⟨a, rest, rfl, ha, hrest⟩ := Format.at?_array hindices fun _ _ h => by cases h
    obtain ⟨rfl, hm⟩ := Format.at?_message hrest
    obtain rfl := Format.message.inj hm
    refine ⟨rfl, d.readings[a],
      putReading (.drone d) fun r => .drone { d with readings := update d.readings a r },
      ?_, ?_, fun r => ?_, fun h => h.2.1 a ha, fun h r hr => ?_⟩
    · show ((element d.readings a >>= _) >>= _) = _
      rw [element_bind _ ha]
      rfl
    · exact (DynamicMessage.locate?_of hi rfl hfield).trans
        ((Node.follow?_ofVector ha _ _ _).trans (by rw [Node.follow?]))
    · have hset : d.nodes.modify 1 (fun node => Node.replaceAt [a] node r.node) =
          d.nodes.modify 1 fun _ => .ofVector Reading.node (update d.readings a r) :=
        modify_congr rfl (Node.replaceAt_ofVector ha (by rw [Node.replaceAt]))
      exact (DynamicMessage.replace_of hi _).trans (congrArg (DynamicMessage.mk _) hset)
    · exact ⟨h.1, forall_update h.2.1 hr, h.2.2⟩
  · obtain rfl := Option.some.inj hfield'
    obtain ⟨a, rest, -, -, hrest⟩ := Format.at?_array hindices fun _ _ h => by cases h
    obtain ⟨b, rest, -, -, hrest⟩ := Format.at?_array hrest fun _ _ h => by cases h
    cases (Format.at?_scalar rfl hrest).2
  · obtain rfl := Option.some.inj hfield'
    cases (Format.at?_scalar rfl hindices).2
  · cases hfield'

theorem extremes_nested {e : Extremes} {place : Place} {m : MessageFormat}
    (hat : Extremes.format.formatAt? place = some (.message m)) :
    m = Reading.format ∧ ∃ r put, Nested (.extremes e) place r put := by
  have hsound : Extremes.format.Sound := format_sound (.extremes e)
  have hfields := congrArg MessageFormatOf.fields Extremes.format_eq
  dsimp only at hfields
  obtain ⟨i, field, indices, rfl, hi, hfield, hfield', hindices⟩ := hsound.of_formatAt? hfields hat
  obtain _ | _ | _ | _ | _ | _ | i := i
  · obtain rfl := Option.some.inj hfield'
    cases (Format.at?_scalar rfl hindices).2
  · obtain rfl := Option.some.inj hfield'
    cases (Format.at?_scalar rfl hindices).2
  · obtain rfl := Option.some.inj hfield'
    obtain ⟨a, rest, -, -, hrest⟩ := Format.at?_array hindices fun _ _ h => by cases h
    obtain ⟨b, rest, -, -, hrest⟩ := Format.at?_array hrest fun _ _ h => by cases h
    cases (Format.at?_scalar rfl hrest).2
  · obtain rfl := Option.some.inj hfield'
    obtain ⟨rfl, hm⟩ := Format.at?_message hindices
    obtain rfl := Format.message.inj hm
    refine ⟨rfl, e.sample, putReading (.extremes e) fun r => .extremes { e with sample := r },
      rfl, ?_, fun r => ?_, fun h => h.2.2.2.1,
      fun h r hr => ⟨h.1, h.2.1, h.2.2.1, hr, h.2.2.2.2⟩⟩
    · exact (DynamicMessage.locate?_of hi rfl hfield).trans (by rw [Node.follow?]; rfl)
    · have hset : e.nodes.modify 3 (fun node => Node.replaceAt [] node r.node) =
          e.nodes.modify 3 fun _ => r.node := by
        simp only [Node.replaceAt]
      exact (DynamicMessage.replace_of hi _).trans (congrArg (DynamicMessage.mk _) hset)
  · obtain rfl := Option.some.inj hfield'
    cases (Format.at?_scalar rfl hindices).2
  · obtain rfl := Option.some.inj hfield'
    cases (Format.at?_scalar rfl hindices).2
  · cases hfield'

end TypedMessage

end Bitwire
