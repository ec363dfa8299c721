import Bitwire.Proofs.DecodingOnto
import Bitwire.Proofs.Makers
import Bitwire.Proofs.RoundTrip

/-!
# Fields that are added to a message

A message may be given more fields with higher numbers.  The fields that it had before keep their
places, so a reader that knows only these has from the bytes of a writer that knows all of them what
the writer's own reader has, cut down to the fields that both know.
-/

namespace Bitwire

namespace MessageType

/-! ## 1. Places -/

/-- The fields of `m'` are those of `m` and, in any order, more fields with higher numbers. -/
structure Extends (m' m : MessageType) (extra : List Field) : Prop where
  fields : m'.fields.Perm (m.fields ++ extra)
  higher : ∀ f ∈ m.fields, ∀ g ∈ extra, f.number < g.number

theorem placedFields_append (front back : List Field) (offset : Nat) :
    placedFields offset (front ++ back) = placedFields offset front ++
      placedFields (offset + (front.map fun f => f.type.width).sum) back := by
  induction front generalizing offset with
  | nil => rfl
  | cons f front ih =>
    rw [List.cons_append, placedFields, placedFields, ih, List.cons_append, List.map_cons,
      List.sum_cons, Nat.add_assoc]

namespace Extends

variable {m m' : MessageType} {extra : List Field} (h : m'.Extends m extra)

include h

-- The fields that were added stand behind all others.
theorem sortedFields_eq (hmade : m'.Made) : m'.sortedFields =
    m.sortedFields ++ extra.mergeSort fun a b => decide (a.number ≤ b.number) := by
  have hsorted := Bisect.pairwise_mergeSort FieldOf.number m'.fields
  have hsorted' := Bisect.pairwise_mergeSort FieldOf.number m.fields
  have hextra := Bisect.pairwise_mergeSort FieldOf.number extra
  have hperm : m'.sortedFields.Perm (m.sortedFields ++ extra.mergeSort fun a b =>
      decide (a.number ≤ b.number)) :=
    (List.mergeSort_perm _ _).trans <| h.fields.trans <|
      ((List.mergeSort_perm _ _).symm.append (List.mergeSort_perm _ _).symm)
  have hnumbers := nodup_of_ascending hmade.consistent.ascending
  apply Bisect.eq_of_perm hperm ((hperm.map _).nodup_iff.mp hnumbers) hsorted
  refine List.pairwise_append.mpr ⟨hsorted', hextra, fun f hf g hg => ?_⟩
  exact UInt16.le_of_lt (h.higher f (mem_sortedFields.mp hf) g (List.mem_mergeSort.mp hg))

-- No field that was added stands in front of one that was there.
theorem precedingBits_eq {f : Field} (hf : f ∈ m.fields) :
    m'.precedingBits f = m.precedingBits f := by
  have hnone : extra.filter (fun g => decide (g.number < f.number)) = [] := by
    rw [List.filter_eq_nil_iff]
    intro g hg hlt
    exact UInt16.lt_asymm (h.higher f hf g hg) (of_decide_eq_true hlt)
  have hperm := h.fields.filter fun g => decide (g.number < f.number)
  rw [List.filter_append, hnone, List.append_nil] at hperm
  exact (hperm.map fun g => g.type.width).sum_nat

/-- Fields that were there keep their places. -/
theorem offsetOf?_eq (hm : m.Made) (hm' : m'.Made) {f : Field} (hf : f ∈ m.fields) :
    m'.layout.offsetOf? f.number = m.layout.offsetOf? f.number := by
  have hf' : f ∈ m'.fields := h.fields.mem_iff.mpr (List.mem_append_left _ hf)
  rw [hm.consistent.offsetOf?_eq hf, hm'.consistent.offsetOf?_eq hf', h.precedingBits_eq hf]

/-- The format of the longer message starts with the fields of the shorter one. -/
theorem exists_more (hm : m.Made) (hm' : m'.Made) :
    ∃ more, m'.format.fields.toList = m.format.fields.toList ++ more := by
  rw [hm'.consistent.format_fields, hm.consistent.format_fields, h.sortedFields_eq hm',
    placedFields_append]
  exact ⟨_, rfl⟩

theorem byteCount_le (hm : m.Made) (hm' : m'.Made) : m.byteCount ≤ m'.byteCount := by
  have htotal : m'.layout.totalBits =
      m.layout.totalBits + (extra.map fun f => f.type.width).sum := by
    rw [hm.consistent.totalBits_eq_sum, hm'.consistent.totalBits_eq_sum,
      (h.fields.map fun f => f.type.width).sum_nat, List.map_append, List.sum_append]
  simp only [byteCount, Layout.byteCount, Pattern.byteCount, htotal]
  omega

end Extends

end MessageType

/-! ## 2. Records -/

section

variable (g : Format → (offset : Nat) → UInt64 → UInt64)

/-- The values that fields of a message at bit `base` have when every pattern of theirs was zero and
was changed. -/
def valuesFrom (base : Nat) (fields : List FieldFormat) : List (String × Value) :=
  Node.fieldValues (Format.mapFields g fields base (Format.blanks fields)) fields

theorem valuesFrom_append (base : Nat) (front back : List FieldFormat) :
    valuesFrom g base (front ++ back) = valuesFrom g base front ++ valuesFrom g base back := by
  induction front with
  | nil => rfl
  | cons f front ih =>
    rw [valuesFrom] at ih
    rw [List.cons_append, valuesFrom, Format.blanks, Format.mapFields, Node.fieldValues, ih]
    rfl

theorem map_fst_valuesFrom (base : Nat) (fields : List FieldFormat) :
    (valuesFrom g base fields).map Prod.fst = fields.map PlacedField.name := by
  induction fields with
  | nil => rfl
  | cons f rest ih =>
    rw [valuesFrom] at ih
    rw [valuesFrom, Format.blanks, Format.mapFields, Node.fieldValues, List.map_cons, ih,
      List.map_cons]

theorem toRecord_mapLeaves_blank (f : MessageFormat) :
    ((DynamicMessage.blank f).mapLeaves g).toRecord =
      Record.ofList (valuesFrom g 0 f.fields.toList) :=
  rfl

end

namespace Record

/-- The entries of some names. -/
def restrict (names : List String) (r : Record) : Record :=
  r.filter fun entry => names.contains entry.1

theorem restrict_congr {names names' : List String} (h : ∀ name, name ∈ names ↔ name ∈ names')
    (r : Record) : r.restrict names = r.restrict names' := by
  refine List.filter_congr fun entry _ => ?_
  rw [Bool.eq_iff_iff, List.contains_iff_mem, List.contains_iff_mem, h]

-- Of entries of different names those in front are picked out by their names.
theorem restrict_ofList {front back : List (String × Value)}
    (h : ((front ++ back).map Prod.fst).Nodup) :
    (ofList (front ++ back)).restrict (front.map Prod.fst) = ofList front := by
  have hfront : (front.map Prod.fst).Nodup := by
    rw [List.map_append] at h
    exact h.of_append_left
  have hfilter : (front ++ back).filter (fun entry => (front.map Prod.fst).contains entry.1) =
      front := by
    rw [List.map_append] at h
    have hapart := List.disjoint_of_nodup_append h
    rw [List.filter_append, List.filter_eq_self.mpr, List.filter_eq_nil_iff.mpr, List.append_nil]
    · intro entry hentry hmem
      exact hapart (List.contains_iff_mem.mp hmem) (List.mem_map_of_mem hentry)
    · intro entry hentry
      exact List.contains_iff_mem.mpr (List.mem_map_of_mem hentry)
  have hordered : Ordered ((ofList (front ++ back)).restrict (front.map Prod.fst)) :=
    (ofList_ordered _).filter _
  refine hordered.eq_of_perm (ofList_ordered front) ?_
  have hperm := (ofList_perm h).filter fun entry => (front.map Prod.fst).contains entry.1
  rw [hfilter] at hperm
  exact hperm.trans (ofList_perm hfront).symm

end Record

/-! ## 3. Decoding -/

namespace MessageType

-- What bytes are decoded as, leaf by leaf.
theorem Made.decode_deposit {m : MessageType} (h : m.Made)
    (hmemory : m.format.isAllocatable = true) {data : List UInt8}
    (hlen : m.byteCount ≤ data.length) : (m.decode data).value =
      .ok ((DynamicMessage.blank m.format).mapLeaves (DynamicMessage.deposit data)).toRecord := by
  rw [← h.byteCount_eq] at hlen
  exact decode_of_decodeInto hmemory (congrArg Logged.value
    ((DynamicMessage.fits_blank m.format).decodeInto_run h.format.1 rfl hlen))

-- The names of the format's fields are those of the declared ones.
theorem Made.names_perm {m : MessageType} (h : m.Made) :
    (m.format.fields.toList.map PlacedField.name).Perm (m.fields.map FieldOf.name) := by
  rw [h.consistent.format_fields, map_placedFields FieldOf.name fun _ _ => rfl]
  exact (List.mergeSort_perm _ _).map _

/-- A reader without the fields that were added has from any bytes that are enough for all fields
what a reader with all fields has, as far as it knows the names. -/
theorem Extends.decode_restrict {m m' : MessageType} {extra : List Field}
    (h : m'.Extends m extra) (hm : m.Made) (hm' : m'.Made)
    (hmemory' : m'.format.isAllocatable = true) {data : List UInt8}
    (hlen : m'.byteCount ≤ data.length) : ∃ full, (m'.decode data).value = .ok full ∧
      (m.decode data).value = .ok (full.restrict (m.fields.map FieldOf.name)) := by
  obtain ⟨more, hmore⟩ := h.exists_more hm hm'
  have hmemory : m.format.isAllocatable = true := by
    rw [MessageFormat.isAllocatable, hmore, Format.allAllocatable_iff] at hmemory'
    exact (Format.allAllocatable_iff _).mpr fun f hf => hmemory' f (List.mem_append_left _ hf)
  refine ⟨_, hm'.decode_deposit hmemory' hlen, ?_⟩
  rw [hm.decode_deposit hmemory ((h.byteCount_le hm hm').trans hlen)]
  have hnodup := hm'.names_perm.nodup_iff.mpr hm'.consistent.names_nodup
  rw [hmore, ← map_fst_valuesFrom (DynamicMessage.deposit data) 0, valuesFrom_append] at hnodup
  have hrestrict := Record.restrict_ofList hnodup
  rw [map_fst_valuesFrom] at hrestrict
  rw [toRecord_mapLeaves_blank, toRecord_mapLeaves_blank, hmore, valuesFrom_append, ← hrestrict]
  exact congrArg Except.ok (Record.restrict_congr (fun _ => hm.names_perm.mem_iff) _)

/-- Old readers read new writers.  If a message has all fields of another, which may come from
another schema, and more fields with higher numbers, then the fields that both have are in the same
places, and from a record that the longer message encodes the shorter one decodes what the longer
one does, cut down to its own fields. -/
theorem decode_extended {d d' : SchemaDef} {schema schema' : Schema} {m m' : MessageType}
    {extra : List Field} (hschema : (Schema.compile d).value = .ok schema)
    (hm : m ∈ schema.messages) (hschema' : (Schema.compile d').value = .ok schema')
    (hm' : m' ∈ schema'.messages) (hfields : m'.fields.Perm (m.fields ++ extra))
    (hnumbers : ∀ f ∈ m.fields, ∀ g ∈ extra, f.number < g.number) :
    (∀ f ∈ m.fields, m.layout.offsetOf? f.number = some (m.precedingBits f) ∧
      m'.layout.offsetOf? f.number = some (m.precedingBits f)) ∧
    ∀ r bytes, (m'.encode r).value = .ok bytes → ∃ full, (m'.decode bytes).value = .ok full ∧
      (m.decode bytes).value = .ok (full.restrict (m.fields.map FieldOf.name)) := by
  have hmade : m.Made := Schema.compile_made hschema hm
  have hmade' : m'.Made := Schema.compile_made hschema' hm'
  have h : m'.Extends m extra := ⟨hfields, hnumbers⟩
  refine ⟨fun f hf => ?_, fun r bytes hbytes => ?_⟩
  · have hoffset := hmade.consistent.offsetOf?_eq hf
    exact ⟨hoffset, (h.offsetOf?_eq hmade hmade' hf).trans hoffset⟩
  · obtain ⟨hmemory', -, rfl⟩ := (hmade'.encode_ok_iff r bytes).mp hbytes
    have hsound := hmade'.format.1
    have hlen := DynamicMessage.length_wire hsound (DynamicMessage.fits_storing hsound r)
    exact h.decode_restrict hmade hmade' hmemory' (hmade'.byteCount_eq.symm.trans hlen.symm).le

/-- The weather station with a gust and a lamp, which share a byte with the end of the total. -/
def stationSchemaExtended : SchemaDef where
  name := "weather"
  aliases := [⟨"Temperature", .int 7⟩]
  enums := [{ name := "Wind", bits := 3, fields := [⟨"CALM", 0⟩, ⟨"GUST", 5⟩] }]
  messages := [
    ⟨"Reading", [⟨2, "valid", .bool⟩, ⟨1, "temperature", .named "Temperature"⟩]⟩,
    ⟨"Station", [⟨9, "gust", .uint 5⟩, ⟨8, "lamp", .bool⟩, ⟨7, "total", .uint 33⟩,
      ⟨4, "readings", .array (.named "Reading") 2⟩, ⟨1, "wind", .named "Wind"⟩]⟩]

/-- What a station sends that has a gust and a lamp. -/
def stationRecordExtended : Record :=
  ("gust", .uint 21) :: ("lamp", .bool true) :: stationRecord

theorem decode_extended_station : ∃ schema m schema' m' full,
    (Schema.compile stationSchema).value = .ok schema ∧ m ∈ schema.messages ∧
      (Schema.compile stationSchemaExtended).value = .ok schema' ∧ m' ∈ schema'.messages ∧
      (m'.encode stationRecordExtended).value = .ok [237, 75, 4, 0, 0, 0, 176, 2] ∧
      (m'.decode [237, 75, 4, 0, 0, 0, 176, 2]).value = .ok full ∧
      (m.decode [237, 75, 4, 0, 0, 0, 176, 2]).value =
        .ok (full.restrict ["total", "readings", "wind"]) := by
  let extra : List Field := [⟨9, "gust", .uint 5⟩, ⟨8, "lamp", .bool⟩]
  obtain ⟨schema, m, hschema, hm, hp⟩ := @Schema.exists_message? stationSchema "Station"
    (fun m => (m.fields.all fun f => extra.all fun g => decide (f.number < g.number)) &&
      m.fields.map FieldOf.name == ["total", "readings", "wind"]) (by cbv)
  obtain ⟨schema', m', hschema', hm', hencode⟩ := @Schema.exists_message? stationSchemaExtended
    "Station" (fun m => (m.encode stationRecordExtended).value.toOption ==
      some [237, 75, 4, 0, 0, 0, 176, 2]) (by cbv)
  have hfields : ((Schema.compile stationSchemaExtended).value.toOption.bind
      (·.message? "Station")).map (·.fields) =
        ((Schema.compile stationSchema).value.toOption.bind (·.message? "Station")).map fun m =>
          extra ++ m.fields := by cbv
  rw [hschema, hschema'] at hfields
  change (schema'.message? "Station").map _ = (schema.message? "Station").map _ at hfields
  rw [hm, hm'] at hfields
  have hperm : m'.fields.Perm (m.fields ++ extra) :=
    (List.Perm.of_eq (Option.some.inj hfields)).trans List.perm_append_comm
  obtain ⟨hlow, hnames⟩ := Bool.and_eq_true_iff.mp hp
  have hnumbers : ∀ f ∈ m.fields, ∀ g ∈ extra, f.number < g.number := by
    simpa only [List.all_eq_true, decide_eq_true_eq] using hlow
  have hmem := List.mem_of_find?_eq_some hm
  have hmem' := List.mem_of_find?_eq_some hm'
  have hbytes := ok_of_toOption (eq_of_beq hencode)
  obtain ⟨full, hfull, hrestrict⟩ :=
    (decode_extended hschema hmem hschema' hmem' hperm hnumbers).2 _ _ hbytes
  rw [eq_of_beq hnames] at hrestrict
  exact ⟨schema, m, schema', m', full, hschema, hmem, hschema', hmem', hbytes, hfull, hrestrict⟩

end MessageType

end Bitwire
