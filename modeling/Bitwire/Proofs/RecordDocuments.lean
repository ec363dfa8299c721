import Bitwire.Proofs.DecodingOnto
import Bitwire.Proofs.JsonReadBack
import Bitwire.Proofs.RecordValidation
import Bitwire.Record.Document

/-!
# Records as documents

A record that is written as JSON is read back with every unsigned integer that fits as a signed
one, whatever library writes and reads it.  Storing a value does not see the difference, neither in
what it stores nor in what it refuses, so a message is encoded from the record that was read back as
it is from the record itself.
-/

namespace Bitwire

/-! ## 1. What JSON values stand for -/

namespace Json

/-- The value of a record that a JSON value stands for.  The kinds of values are tried one after the
other, and the first that fits counts: truth values, signed integers, unsigned integers, arrays and
records.  Of several members of one name the last counts. -/
inductive IsValue : Json → Value → Prop
  | bool (b : Bool) : IsValue (.bool b) (.bool b)
  | int (v : Int64) : IsValue (.int v.toInt) (.int v)
  | uint {v : UInt64} : Int64.maxValue.toInt < v.toNat → IsValue (.int v.toNat) (.uint v)
  | array {items : List Json} {values : List Value} : List.Forall₂ IsValue items values →
      IsValue (.arr items) (.array values)
  | message {members : List (String × Json)} {values : List Value} :
      List.Forall₂ IsValue (members.map Prod.snd) values →
      IsValue (.obj members) (.message (Record.ofList ((members.map Prod.fst).zip values)))

/-- The record that a JSON value stands for. -/
def IsRecord (v : Json) (r : Record) : Prop :=
  v.IsValue (.message r)

end Json

namespace Value

/-- Induction over values. -/
@[elab_as_elim]
theorem induct {motive : Value → Prop} (bool : ∀ b, motive (.bool b)) (int : ∀ v, motive (.int v))
    (uint : ∀ v, motive (.uint v))
    (array : ∀ items, (∀ item ∈ items, motive item) → motive (.array items))
    (message : ∀ entries : List (String × Value), (∀ entry ∈ entries, motive entry.2) →
      motive (.message entries)) (value : Value) : motive value := by
  refine @Value.rec motive (fun items => ∀ item ∈ items, motive item)
    (fun entries => ∀ entry ∈ entries, motive entry.2) (fun entry => motive entry.2)
    bool int uint array message ?_ (fun item rest hitem hrest => ?_) ?_
    (fun entry rest hentry hrest => ?_) (fun _ _ h => h) value
  · exact fun item hitem => absurd hitem List.not_mem_nil
  · rw [List.forall_mem_cons]
    exact ⟨hitem, hrest⟩
  · exact fun entry hentry => absurd hentry List.not_mem_nil
  · rw [List.forall_mem_cons]
    exact ⟨hentry, hrest⟩

/-! ## 2. Signed integers -/

mutual

/-- The value with every unsigned integer that fits in 64 bits with a sign as a signed one. -/
def signed : Value → Value
  | .bool b => .bool b
  | .int v => .int v
  | .uint v => if v.toNat ≤ Int64.maxValue.toInt then .int v.toInt64 else .uint v
  | .array items => .array (itemsSigned items)
  | .message entries => .message (entriesSigned entries)

/-- The elements of an array, each with signed integers. -/
def itemsSigned : List Value → List Value
  | [] => []
  | item :: rest => item.signed :: itemsSigned rest

/-- The entries of a record, each with signed integers. -/
def entriesSigned : List (String × Value) → List (String × Value)
  | [] => []
  | (name, value) :: rest => (name, value.signed) :: entriesSigned rest

end

theorem itemsSigned_eq_map (items : List Value) : itemsSigned items = items.map signed := by
  induction items with
  | nil => rfl
  | cons item rest ih => rw [itemsSigned, ih, List.map_cons]

theorem entriesSigned_eq_map (entries : List (String × Value)) :
    entriesSigned entries = entries.map fun entry => (entry.1, entry.2.signed) := by
  induction entries with
  | nil => rfl
  | cons entry rest ih => rw [entriesSigned, ih, List.map_cons]

theorem itemsToJson_eq_map (items : List Value) : itemsToJson items = items.map toJson := by
  induction items with
  | nil => rfl
  | cons item rest ih => rw [itemsToJson, ih, List.map_cons]

theorem entriesToJson_eq_map (entries : List (String × Value)) :
    entriesToJson entries = entries.map fun entry => (entry.1, entry.2.toJson) := by
  induction entries with
  | nil => rfl
  | cons entry rest ih => rw [entriesToJson, ih, List.map_cons]

-- An unsigned integer that fits is the same number with a sign.
theorem toInt_toInt64 {v : UInt64} (h : (v.toNat : Int) ≤ Int64.maxValue.toInt) :
    v.toInt64.toInt = v.toNat := by
  have hmax : Int64.maxValue.toInt = 2 ^ 63 - 1 := rfl
  exact Pattern.toInt_toInt64_of_lt (by omega)

/-! ## 3. Writing and reading -/

/-- Every value has a text. -/
theorem native_toJson (value : Value) : value.toJson.Native := by
  induction value using Value.induct with
  | bool b => exact .bool b
  | int v => exact .int v.toInt
  | uint v => exact .int v.toNat
  | array items ih =>
    rw [toJson, itemsToJson_eq_map]
    exact .arr (List.forall_mem_map.mpr ih)
  | message entries ih =>
    rw [toJson, entriesToJson_eq_map]
    exact .obj (List.forall_mem_map.mpr ih)

end Value

namespace Record

theorem Ordered.map_fst_nodup {r : Record} (h : r.Ordered) : (r.map Prod.fst).Nodup :=
  List.pairwise_map.mpr (h.imp fun hlt => ne_of_lt hlt)

-- A record is made of its own entries.
theorem Ordered.ofList_self {r : Record} (h : r.Ordered) : ofList r = r :=
  (ofList_ordered r).eq_of_perm h (ofList_perm h.map_fst_nodup)

/-- The record with every unsigned integer that fits in 64 bits with a sign as a signed one. -/
def signed (r : Record) : Record :=
  Value.entriesSigned r

-- The names stay as they are, and so does their order.
theorem Ordered.signed {r : Record} (h : r.Ordered) : r.signed.Ordered := by
  rw [Record.signed, Value.entriesSigned_eq_map]
  exact List.pairwise_map.mpr h

end Record

namespace Value

/-- What represents a value stands for it with signed integers. -/
theorem isValue_toJson {value : Value} (h : value.Ordered) : value.toJson.IsValue value.signed := by
  induction h with
  | bool b => exact .bool b
  | int v => exact .int v
  | uint v =>
    rw [toJson, signed]
    by_cases hmax : (v.toNat : Int) ≤ Int64.maxValue.toInt
    · rw [if_pos hmax, ← toInt_toInt64 hmax]
      exact .int v.toInt64
    · rw [if_neg hmax]
      exact .uint (not_le.mp hmax)
  | @array items _ ih =>
    rw [toJson, itemsToJson_eq_map, signed, itemsSigned_eq_map]
    refine .array ?_
    rw [List.forall₂_map_left_iff, List.forall₂_map_right_iff, List.forall₂_same]
    exact ih
  | @message entries hordered _ ih =>
    have hself := hordered.signed.ofList_self
    rw [Record.signed, entriesSigned_eq_map] at hself
    rw [toJson, entriesToJson_eq_map, signed, entriesSigned_eq_map, ← hself]
    have hvalues : List.Forall₂ Json.IsValue
        ((entries.map fun entry => (entry.1, entry.2.toJson)).map Prod.snd)
        (entries.map fun entry => entry.2.signed) := by
      rw [List.map_map, List.forall₂_map_left_iff, List.forall₂_map_right_iff, List.forall₂_same]
      exact ih
    have hmessage := Json.IsValue.message hvalues
    rwa [List.map_map, List.zip_map'] at hmessage

-- Elements are read if each is.
theorem itemsOfJson?_of {items : List Json} {values : List Value} {room : Nat}
    (hread : ∀ item ∈ items, ∀ value, item.IsValue value → ofJson? item room = some value)
    (h : List.Forall₂ Json.IsValue items values) : itemsOfJson? items room = some values := by
  induction h with
  | nil => rfl
  | cons hitem _ ih =>
    obtain ⟨hfirst, hrest⟩ := List.forall_mem_cons.mp hread
    rw [itemsOfJson?, hfirst _ hitem, ih hrest]

theorem entriesOfJson?_of {members : List (String × Json)} {values : List Value} {room : Nat}
    (hread : ∀ member ∈ members, ∀ value, member.2.IsValue value →
      ofJson? member.2 room = some value)
    (h : List.Forall₂ Json.IsValue (members.map Prod.snd) values) :
    entriesOfJson? members room = some ((members.map Prod.fst).zip values) := by
  induction members generalizing values with
  | nil => cases h; rfl
  | cons member rest ih =>
    obtain ⟨hfirst, hrest⟩ := List.forall_mem_cons.mp hread
    cases h with
    | cons hmember hothers =>
      rw [entriesOfJson?, hfirst _ hmember, ih hrest hothers]
      rfl

/-- What a JSON value stands for is read from it. -/
theorem ofJson?_of_isValue {v : Json} {value : Value} (h : v.IsValue value) {room : Nat}
    (hroom : v.nesting ≤ room) : ofJson? v room = some value := by
  induction v using Json.induct generalizing value room with
  | null | str | foreign => cases h
  | bool b => cases h; rw [ofJson?]
  | int n =>
    cases h with
    | int v => rw [ofJson?, if_pos ⟨v.minValue_le_toInt, v.toInt_le⟩, Int64.ofInt_toInt]
    | @uint v hmax =>
      have hsize : (v.toNat : Int) < UInt64.size := Int.ofNat_lt.mpr v.toNat_lt_size
      rw [ofJson?, if_neg fun h => not_le.mpr hmax h.2, if_pos ⟨Int.natCast_nonneg _, hsize⟩,
        Int.toNat_natCast, UInt64.ofNat_toNat]
  | arr items ih =>
    obtain ⟨inner, rfl, hinner⟩ := (Json.nesting_arr_le_iff _ _).mp hroom
    cases h with
    | array hvalues =>
      rw [ofJson?, itemsOfJson?_of (fun item hitem _ hv => ih item hitem hv (hinner item hitem))
        hvalues]
      rfl
  | obj members ih =>
    obtain ⟨inner, rfl, hinner⟩ := (Json.nesting_obj_le_iff _ _).mp hroom
    cases h with
    | message hvalues =>
      rw [ofJson?, entriesOfJson?_of
        (fun member hmember _ hv => ih member hmember hv (hinner member hmember)) hvalues]
      rfl

end Value

/-- The library of this development reads and prints records as documented. -/
theorem Record.library_documented : Record.library.Documented toJson Json.IsRecord := by
  refine JsonLibrary.standard_documented (fun r => Value.native_toJson (.message r))
    fun v r hnesting hr => ?_
  rw [ofJson?, Value.ofJson?_of_isValue hr hnesting]
  rfl

/-- A record that is not nested too deep is read back from its text, with signed integers. -/
theorem Record.exists_text {lib : JsonLibrary Record} (hlib : lib.Documented toJson Json.IsRecord)
    {r : Record} (h : (Value.message r).Ordered)
    (hnesting : r.toJson.nesting ≤ DocumentReader.maxNesting) :
    ∃ text, r.text? lib = some text ∧ parse? lib text = some r.signed := by
  obtain ⟨text, htext, hspells⟩ := hlib.compact r
  exact ⟨text, htext, hlib.read hspells hnesting (Value.isValue_toJson h)⟩

/-! ## 4. Storing -/

namespace Value

-- A sign takes nothing from the number.
theorem unsignedPattern_signed (value : Value) (bits : Nat) (path : FieldPath) :
    value.signed.unsignedPattern bits path = value.unsignedPattern bits path := by
  cases value with
  | uint v =>
    rw [signed]
    by_cases hmax : (v.toNat : Int) ≤ Int64.maxValue.toInt
    · have hpos : decide (0 ≤ v.toInt64.toInt) = true := by
        rw [toInt_toInt64 hmax]
        exact decide_eq_true (Int.natCast_nonneg _)
      rw [if_pos hmax, unsignedPattern, unsignedPattern, UInt64.toUInt64_toInt64, hpos,
        Bool.true_and, toInt_toInt64 hmax]
    · rw [if_neg hmax]
  | bool | int | array | message => rfl

theorem signedPattern_signed (value : Value) (bits : Nat) (path : FieldPath) :
    value.signed.signedPattern bits path = value.signedPattern bits path := by
  cases value with
  | uint v =>
    rw [signed]
    by_cases hmax : (v.toNat : Int) ≤ Int64.maxValue.toInt
    · have hlt : decide (v.toNat < UInt64.size / 2) = true := by
        have hvalue : Int64.maxValue.toInt = 2 ^ 63 - 1 := rfl
        rw [decide_eq_true_eq, UInt64.size]
        omega
      rw [if_pos hmax, signedPattern, signedPattern, hlt, Bool.true_and, toInt_toInt64 hmax]
    · rw [if_neg hmax]
  | bool | int | array | message => rfl

-- The uint form of a value changes its constructor only where it is an integer.
theorem toNode_signed_scalar (value : Value) {f : Format} (hs : f.isScalar = true)
    (path : FieldPath) : value.signed.toNode f path = value.toNode f path := by
  cases f with
  | int bits => rw [toNode_int, toNode_int, signedPattern_signed]
  | uint bits => rw [toNode_uint, toNode_uint, unsignedPattern_signed]
  | enum e => rw [toNode_enum, toNode_enum, unsignedPattern_signed]
  | bool =>
    cases value with
    | uint v => rw [signed]; split <;> rfl
    | bool | int => rw [signed]
    | array | message => rw [signed]; rfl
  | array | message => cases hs

-- An integer is no array and no record, with a sign or without.
theorem toNode_signed_uint (v : UInt64) {f : Format} (hs : f.isScalar = false) (path : FieldPath) :
    (Value.uint v).signed.toNode f path = (Value.uint v).toNode f path := by
  cases f with
  | array | message => rw [signed]; split <;> rfl
  | bool | int | uint | enum => cases hs

mutual

/-- A value is stored, or refused, as its form with signed integers is. -/
theorem toNode_signed : ∀ (value : Value) (f : Format) (path : FieldPath),
    value.signed.toNode f path = value.toNode f path
  | .bool b, f, path => by rw [signed]
  | .int v, f, path => by rw [signed]
  | .uint v, f, path => by
    cases hs : f.isScalar with
    | true => exact toNode_signed_scalar _ hs path
    | false => exact toNode_signed_uint v hs path
  | .array items, f, path => by
    cases f with
    | array element capacity =>
      rw [signed, toNode, toNode, itemNodes_signed items element path #[], itemsSigned_eq_map,
        List.length_map]
    | message m => rw [signed]; rfl
    | bool | int | uint | enum => exact toNode_signed_scalar _ rfl path
  | .message entries, f, path => by
    cases f with
    | message m =>
      rw [signed, toNode, toNode]
      simp only [entryNodes_signed entries m path]
    | array element capacity => rw [signed]; rfl
    | bool | int | uint | enum => exact toNode_signed_scalar _ rfl path

theorem itemNodes_signed : ∀ (items : List Value) (element : Format) (path : FieldPath)
    (stored : Array Node),
    itemNodes (itemsSigned items) element path stored = itemNodes items element path stored
  | [], _, _, _ => rfl
  | item :: rest, element, path, stored => by
    rw [itemsSigned, itemNodes, itemNodes, toNode_signed item element]
    cases item.toNode element (path.index stored.size) with
    | error e => rfl
    | ok node => exact itemNodes_signed rest element path (stored.push node)

theorem entryNodes_signed : ∀ (entries : List (String × Value)) (m : MessageFormat)
    (path : FieldPath) (nodes : Array Node),
    entryNodes (entriesSigned entries) m path nodes = entryNodes entries m path nodes
  | [], _, _, _ => rfl
  | (name, value) :: rest, m, path, nodes => by
    rw [entriesSigned, entryNodes, entryNodes]
    cases m.named? name with
    | none => rfl
    | some found =>
      obtain ⟨i, field⟩ := found
      dsimp only
      rw [toNode_signed value field.format]
      cases value.toNode field.format (path.field name) with
      | error e => rfl
      | ok node => exact entryNodes_signed rest m path (nodes.setIfInBounds i node)

end

end Value

/-- A message is encoded from a record, or refuses it, as with signed integers. -/
theorem MessageType.encode_signed (m : MessageType) (r : Record) :
    m.encode r.signed = m.encode r := by
  have hrecord : DynamicMessage.ofRecord m.format r.signed = DynamicMessage.ofRecord m.format r := by
    simp only [DynamicMessage.ofRecord, Record.signed, Value.entryNodes_signed]
  rw [encode, encode, hrecord]

/-! ## 5. Decoded records -/

theorem Record.mem_foldl_insert {entries : List (String × Value)} {r : Record}
    {entry : String × Value}
    (h : entry ∈ entries.foldl (fun r (name, value) => r.insert name value) r) :
    entry ∈ r ∨ entry ∈ entries := by
  induction entries generalizing r with
  | nil => exact Or.inl h
  | cons first rest ih =>
    obtain hinserted | hrest := ih h
    · obtain rfl | hold := mem_insert hinserted
      · exact Or.inr List.mem_cons_self
      · exact Or.inl hold
    · exact Or.inr (List.mem_cons_of_mem _ hrest)

theorem Record.mem_ofList {entries : List (String × Value)} {entry : String × Value}
    (h : entry ∈ ofList entries) : entry ∈ entries :=
  (mem_foldl_insert h).resolve_left List.not_mem_nil

namespace Node

mutual

/-- What a stored value stands for lists each name once, in ascending order. -/
theorem ordered_toValue : ∀ (node : Node) (f : Format), (node.toValue f).Ordered
  | .leaf pattern, f => by
    cases f with
    | bool => exact .bool _
    | int bits => exact .int _
    | uint | enum | array | message => exact .uint _
  | .array ⟨items⟩, f => by
    cases f with
    | array element capacity => exact .array (ordered_itemValues items element)
    | bool | int | uint | enum | message => exact .message List.Pairwise.nil (by simp)
  | .message own ⟨nodes⟩, f => by
    cases f with
    | message m =>
      exact .message (Record.ofList_ordered _) fun entry hentry =>
        ordered_fieldValues nodes own.fields.toList entry (Record.mem_ofList hentry)
    | bool | int | uint | enum | array => exact .message List.Pairwise.nil (by simp)

theorem ordered_itemValues : ∀ (items : List Node) (element : Format),
    ∀ value ∈ itemValues items element, value.Ordered
  | [], _ => by simp [itemValues]
  | item :: rest, element => by
    rw [itemValues, List.forall_mem_cons]
    exact ⟨ordered_toValue item element, ordered_itemValues rest element⟩

theorem ordered_fieldValues : ∀ (nodes : List Node) (fields : List FieldFormat),
    ∀ entry ∈ fieldValues nodes fields, entry.2.Ordered
  | [], _ => by simp [fieldValues]
  | _ :: _, [] => by simp [fieldValues]
  | node :: rest, field :: fields => by
    rw [fieldValues, List.forall_mem_cons]
    exact ⟨ordered_toValue node field.format, ordered_fieldValues rest fields⟩

end

end Node

theorem DynamicMessage.ordered_toRecord (msg : DynamicMessage) :
    (Value.message msg.toRecord).Ordered :=
  Node.ordered_toValue (.message msg.format msg.nodes) (.message msg.format)

namespace MessageType.Made

variable {m : MessageType} (h : m.Made)

include h

-- A record that was decoded lists the fields of a message that fits, whose memory was asked for.
theorem exists_of_decode {data : List UInt8} {config : CodecConfig} {r : Record}
    (hr : (m.decode data config).value = .ok r) :
    m.format.isAllocatable = true ∧
      ∃ msg : DynamicMessage, msg.format = m.format ∧ msg.Fits ∧ r = msg.toRecord := by
  have hfit := DynamicMessage.fits_blank m.format
  by_cases hmemory : m.format.isAllocatable = true
  · by_cases hlen : m.format.byteCount ≤ data.length
    · have hinto : (m.decoded data).value =
          .ok ((DynamicMessage.blank m.format).mapLeaves (DynamicMessage.deposit data)) := by
        rw [decoded_of hmemory, hfit.decodeInto_run h.format.1 rfl hlen]
        rfl
      refine ⟨hmemory, _, rfl, hfit.mapLeaves_deposit data, ?_⟩
      rw [decode, Logged.value_thenTry hinto, Logged.value_map] at hr
      revert hr
      cases (m.format.verify DynamicMessage.accessor _ config).run.value with
      | ok _ => exact fun hr => (Except.ok.inj hr).symm
      | error e => exact fun hr => absurd hr (by simp)
    · rw [decode, decoded_of hmemory, MessageFormat.decodeInto, if_pos (not_le.mp hlen)] at hr
      cases hr
  · rw [decode_of_not_allocatable hmemory] at hr
    cases hr

end MessageType.Made

/-! ## 6. Through a document -/

/-- With a library that does what is documented, a record that is not nested too deep is read back
from its text with signed integers, and a message makes no difference between the two: it encodes
both alike, or refuses both for the same reason.  So a record that was decoded can go through its
text on its way back to bytes. -/
theorem Record.encode_reread {lib : JsonLibrary Record}
    (hlib : lib.Documented Record.toJson Json.IsRecord) :
    (∀ r : Record, (Value.message r).Ordered → r.toJson.nesting ≤ DocumentReader.maxNesting →
      ∃ text, r.text? lib = some text ∧ Record.parse? lib text = some r.signed) ∧
    (∀ (m : MessageType) (r : Record), m.encode r.signed = m.encode r) ∧
    ∀ {d : SchemaDef} {schema : Schema} {m : MessageType} {data : List UInt8}
      {config : CodecConfig} {r : Record}, (Schema.compile d).value = .ok schema →
      m ∈ schema.messages → (m.decode data config).value = .ok r →
      r.toJson.nesting ≤ DocumentReader.maxNesting →
      ∃ text reread bytes, r.text? lib = some text ∧ Record.parse? lib text = some reread ∧
        (m.encode r).value = .ok bytes ∧ (m.encode reread).value = .ok bytes := by
  refine ⟨fun r => Record.exists_text hlib, MessageType.encode_signed, ?_⟩
  intro d schema m data config r hschema hm hr hnesting
  have hmade : m.Made := Schema.compile_made hschema hm
  obtain ⟨hmemory, msg, hformat, hfit, rfl⟩ := hmade.exists_of_decode hr
  have hbytes := hmade.encode_toRecord hformat hfit hmemory
  obtain ⟨text, htext, hparse⟩ := Record.exists_text hlib msg.ordered_toRecord hnesting
  refine ⟨text, _, _, htext, hparse, hbytes, ?_⟩
  rw [MessageType.encode_signed]
  exact hbytes

theorem Record.encode_reread_station : ∃ schema m r text reread,
    (Schema.compile stationSchema).value = .ok schema ∧ m ∈ schema.messages ∧
      Record.library.Documented Record.toJson Json.IsRecord ∧
      (m.decode [237, 75, 4, 0, 0, 0, 2]).value = .ok r ∧ r.text? Record.library = some text ∧
      Record.parse? Record.library text = some reread ∧
      (m.encode reread).value = .ok [237, 75, 4, 0, 0, 0, 2] ∧
      ((Record.text? Record.library
        [("\"\n", .uint 0xffffffffffffffff), ("b", .array [.uint 9])]).bind
          (Record.parse? Record.library)) =
        some [("\"\n", .uint 0xffffffffffffffff), ("b", .array [.int 9])] := by
  obtain ⟨schema, m, hschema, hm, hp⟩ := @Schema.exists_message stationSchema "Station"
    (fun m => (m.decode [237, 75, 4, 0, 0, 0, 2]).value.toOption.any fun r =>
      decide (r.toJson.nesting ≤ DocumentReader.maxNesting) &&
      (m.encode r).value.toOption == some [237, 75, 4, 0, 0, 0, 2]) (by cbv)
  obtain ⟨r, hr, hp⟩ := (Option.any_eq_true _ _).mp hp
  obtain ⟨hnesting, hencode⟩ := Bool.and_eq_true_iff.mp hp
  obtain ⟨hedges, -, hdecoded⟩ := encode_reread Record.library_documented
  obtain ⟨text, reread, bytes, htext, hparse, hbytes, hagain⟩ :=
    hdecoded hschema hm (ok_of_toOption hr) (of_decide_eq_true hnesting)
  obtain rfl : bytes = [237, 75, 4, 0, 0, 0, 2] :=
    Except.ok.inj (hbytes.symm.trans (ok_of_toOption (eq_of_beq hencode)))
  have hordered : (Value.message
      [("\"\n", .uint 0xffffffffffffffff), ("b", .array [.uint 9])]).Ordered := by
    refine .message (by decide) ?_
    simp only [List.forall_mem_cons]
    exact ⟨.uint _, .array (by simpa using Value.Ordered.uint 9), by simp⟩
  obtain ⟨edgeText, hedgeText, hedge⟩ := hedges _ hordered (by decide)
  refine ⟨schema, m, r, text, reread, hschema, hm, Record.library_documented, ok_of_toOption hr,
    htext, hparse, hagain, ?_⟩
  rw [hedgeText]
  exact hedge

end Bitwire
