import Bitwire.Proofs.SameWire
import Bitwire.Proofs.WireFormat

/-!
# The table of overlapping fields

A layout tells which fields overlap a byte by comparing positions, without a look at the format.
For fields that have bits this is the answer of the encoder: the fields with a bit in the byte are
those for which it can come to read a value.  A field without bits takes part in no byte, but it is
listed for the byte that it starts inside of.
-/

namespace Bitwire

namespace FieldLayout

/-! ## 1. One field -/

/-- Whether a bit of the field lies in a byte. -/
def HasBitIn (e : FieldLayout) (byte : Nat) : Prop :=
  ∃ i, e.offset ≤ i ∧ i < e.stop ∧ i / 8 = byte

/-- Whether the field has no bits and starts inside a byte, behind its first bit. -/
def EmptyInside (e : FieldLayout) (byte : Nat) : Prop :=
  e.width = 0 ∧ 8 * byte < e.offset ∧ e.offset < 8 * byte + 8

theorem hasBitIn_iff (e : FieldLayout) (byte : Nat) :
    e.HasBitIn byte ↔ max e.offset (8 * byte) < min e.stop (8 * byte + 8) := by
  constructor
  · rintro ⟨i, hlo, hhi, rfl⟩
    omega
  · intro h
    exact ⟨max e.offset (8 * byte), by omega, by omega, by omega⟩

-- The comparison of positions, as if they were not words.
theorem between_iff (e : FieldLayout) (byte : Nat) :
    (e.offset < 8 * byte + 8 ∧ 8 * byte < e.stop) ↔ e.HasBitIn byte ∨ e.EmptyInside byte := by
  rw [hasBitIn_iff, EmptyInside, stop]
  omega

-- Words wrap around, so a byte stands for all bytes that are `2 ^ 61` apart.
theorem overlapsByte_iff {e : FieldLayout} (h : e.stop ≤ Layout.maxBits) (byte : UInt64) :
    e.overlapsByte byte = true ↔
      e.HasBitIn (byte.toNat % 2 ^ 61) ∨ e.EmptyInside (byte.toNat % 2 ^ 61) := by
  have hmax : Layout.maxBits = 2 ^ 32 - 1 := by decide
  have hoffset : e.offset ≤ e.stop := Nat.le_add_right _ _
  have hlo : (byte * 8).toNat = 8 * (byte.toNat % 2 ^ 61) := by
    rw [UInt64.toNat_mul, show (8 : UInt64).toNat = 8 from rfl]
    omega
  have hsize : Layout.maxBits < UInt64.size := by decide
  have hword : ∀ n ≤ Layout.maxBits, (UInt64.ofNat n).toNat = n := fun n hn =>
    UInt64.toNat_ofNat_of_lt (by omega)
  rw [← between_iff, overlapsByte, Bool.and_eq_true, decide_eq_true_iff, decide_eq_true_iff,
    UInt64.lt_iff_toNat_lt, UInt64.lt_iff_toNat_lt, UInt64.toNat_add, hlo, hword _ h,
    hword _ (by omega), show (8 : UInt64).toNat = 8 from rfl]
  -- behind the last byte of all, the sum wraps to zero; no field reaches that far
  omega

end FieldLayout

/-! ## 2. Layouts and formats -/

/-- The entry of a layout for a field of a format. -/
def PlacedField.entry (f : FieldFormat) : FieldLayout :=
  ⟨f.number, f.name, f.offset, f.format.width⟩

namespace MessageType

namespace Made

variable {m : MessageType} (h : m.Made)

include h

/-- The layout of a message type and its format place the same fields. -/
theorem entries_eq : m.layout.entries.toList = m.format.fields.toList.map PlacedField.entry := by
  rw [h.layout_eq]
  rfl

theorem ascending_entries : m.layout.entries.toList.Pairwise fun e e' => e.number < e'.number := by
  rw [h.entries_eq, List.pairwise_map]
  exact h.format.1.ascending

theorem stop_entry_le {e : FieldLayout} (he : e ∈ m.layout.entries.toList) :
    e.stop ≤ m.layout.totalBits := by
  rw [h.entries_eq] at he
  obtain ⟨f, hf, rfl⟩ := List.mem_map.mp he
  rw [← h.format.2.2]
  exact h.format.1.stop_le hf

end Made

end MessageType

/-! ## 3. Values that are read -/

/-- A `getByte` call, with the nested messages that were entered for it. -/
structure ByteRead where
  /-- The places of the messages entered, the outermost first. -/
  trail : List Place
  place : Place
  shift : Int
deriving DecidableEq, Repr

/-- The field of the outermost message that a call was made for. -/
def ByteRead.field (read : ByteRead) : UInt16 :=
  (read.trail.head?.getD read.place).field

/-- The accessor that behaves like a given one and notes what is read.  Messages are held with the
way that led to them. -/
def Accessor.notingReads {α : Type} (A : Accessor Id α) :
    Accessor (StateM (List ByteRead)) (List Place × α) where
  getByte s place shift := do
    modify (· ++ [⟨s.1, place, shift⟩])
    return (A.getByte s.2 place shift).run
  setByte s place shift bits := pure (s.1, (A.setByte s.2 place shift bits).run)
  message? s place :=
    pure ((A.message? s.2 place).run.map fun child => (s.1 ++ [place], child))
  messageMut? s place :=
    pure ((A.messageMut? s.2 place).run.map fun (child, put) =>
      ((s.1 ++ [place], child), fun c => (s.1, put c.2)))

/-- The call that reads a part, behind the messages of a trail. -/
def Part.toRead (trail : List Place) (part : Part) : ByteRead :=
  ⟨trail ++ part.trail, part.place, part.span.shift⟩

theorem Part.toRead_inside (trail : List Place) (place : Place) (part : Part) :
    (part.inside place).toRead trail = part.toRead (trail ++ [place]) := by
  simp [toRead, inside]

section

variable {α : Type} (A : Accessor Id α)

/-- Whether an accessor has every nested message that it is asked for. -/
def Accessor.Supplies : Prop :=
  ∀ (s : α) (place : Place), (A.message? s place).run.isSome = true

mutual

-- What a visit reads are parts of its own, and all of them if no message is missing.
theorem Visit.read_notingReads : ∀ (visit : Visit) (trail : List Place) (s : α)
    (log : List ByteRead), ∃ b reads, (visit.read A.notingReads (trail, s)).run log =
        (b, log ++ reads) ∧ reads.Sublist (visit.parts.map (Part.toRead trail)) ∧
      (A.Supplies → reads = visit.parts.map (Part.toRead trail))
  | .value place span, trail, s, log => by
    refine ⟨_, [⟨trail, place, span.shift⟩], rfl, ?_⟩
    rw [Visit.parts, List.map_singleton, Part.toRead, List.append_nil]
    exact ⟨List.Sublist.refl _, fun _ => rfl⟩
  | .message place inner, trail, s, log => by
    have hread : Part.toRead trail ∘ Part.inside place = Part.toRead (trail ++ [place]) :=
      funext fun part => part.toRead_inside trail place
    rw [Visit.read, Visit.parts, List.map_map, hread]
    have hchild : A.notingReads.message? (trail, s) place =
      pure ((A.message? s place).run.map fun child => (trail ++ [place], child)) := rfl
    rw [hchild, pure_bind]
    cases h : (A.message? s place).run with
    | none =>
      refine ⟨0, [], by rw [List.append_nil]; rfl, List.nil_sublist _, fun hs => ?_⟩
      have hsome := hs s place
      rw [h] at hsome
      cases hsome
    | some child => exact Visit.readAll_notingReads inner (trail ++ [place]) child log

-- What a list of visits reads are parts of its own, and all of them if no message is missing.
theorem Visit.readAll_notingReads : ∀ (visits : List Visit) (trail : List Place) (s : α)
    (log : List ByteRead), ∃ b reads, (Visit.readAll A.notingReads visits (trail, s)).run log =
        (b, log ++ reads) ∧ reads.Sublist ((Visit.partsAll visits).map (Part.toRead trail)) ∧
      (A.Supplies → reads = (Visit.partsAll visits).map (Part.toRead trail))
  | [], trail, s, log =>
    ⟨0, [], by rw [List.append_nil]; rfl, List.Sublist.refl _, fun _ => rfl⟩
  | visit :: rest, trail, s, log => by
    obtain ⟨b, reads, hrun, hsub, hall⟩ := Visit.read_notingReads visit trail s log
    obtain ⟨b', reads', hrun', hsub', hall'⟩ :=
      Visit.readAll_notingReads rest trail s (log ++ reads)
    refine ⟨b ||| b', reads ++ reads', ?_, ?_, fun hs => ?_⟩
    · rw [Visit.readAll, StateT.run_bind, hrun]
      change StateT.run (Visit.readAll A.notingReads rest (trail, s) >>= fun others =>
        pure (b ||| others)) (log ++ reads) = _
      rw [StateT.run_bind, hrun', ← List.append_assoc]
      rfl
    · rw [Visit.partsAll, List.map_append]
      exact hsub.append hsub'
    · rw [Visit.partsAll, List.map_append, hall hs, hall' hs]

end

end

namespace MessageFormat

/-- What encoding a byte of a message reads. -/
def readsOf {α : Type} (f : MessageFormat) (A : Accessor Id α) (s : α) (byte : Nat) :
    List ByteRead :=
  ((f.encodeByte A.notingReads ([], s) byte).run []).2

/-- Whether encoding a byte can come to read a value in a field, for some message. -/
def CanRead (f : MessageFormat) (byte : Nat) (number : UInt16) : Prop :=
  ∃ (α : Type) (A : Accessor Id α) (s : α), ∃ read ∈ f.readsOf A s byte, read.field = number

theorem canRead_iff (f : MessageFormat) (byte : Nat) (number : UInt16) :
    f.CanRead byte number ↔
      ∃ part ∈ Visit.partsAll (f.visits byte), (part.toRead []).field = number := by
  constructor
  · rintro ⟨α, A, s, read, hread, hfield⟩
    obtain ⟨b, reads, hrun, hsub, -⟩ := Visit.readAll_notingReads A (f.visits byte) [] s []
    rw [readsOf, encodeByte, hrun] at hread
    obtain ⟨part, hpart, rfl⟩ := List.mem_map.mp (hsub.subset hread)
    exact ⟨part, hpart, hfield⟩
  · rintro ⟨part, hpart, hfield⟩
    -- a constant message has whatever is asked for
    let A := Accessor.constant 0 true
    obtain ⟨b, reads, hrun, -, hall⟩ := Visit.readAll_notingReads A (f.visits byte) [] () []
    refine ⟨Unit, A, (), part.toRead [], ?_, hfield⟩
    rw [readsOf, encodeByte, hrun, hall fun s place => rfl]
    exact List.mem_map_of_mem hpart

end MessageFormat

namespace Format

-- A leaf belongs to the field at whose place it was looked for.
theorem field_of_mem_leaves {f : Format} {place : Place} {offset : Nat} {l : Leaf}
    (hl : l ∈ f.leaves place offset) : (l.trail.head?.getD l.place).field = place.field := by
  induction f using Format.induct generalizing place offset l with
  | scalar f hs =>
    rw [leaves_scalar hs, List.mem_singleton] at hl
    rw [hl]
    rfl
  | array element capacity ih =>
    obtain ⟨i, -, hl⟩ := mem_leaves_array.mp hl
    exact @ih (place.element i) _ l hl
  | message m ih =>
    obtain ⟨f, -, l', -, rfl⟩ := mem_leaves_message.mp hl
    rfl

end Format

namespace MessageFormat.Sound

variable {f : MessageFormat} (h : f.Sound) (hp : f.Proper)

include h

-- Two fields of one number are one field.
theorem eq_of_number_eq {a b : FieldFormat} (ha : a ∈ f.fields.toList) (hb : b ∈ f.fields.toList)
    (hnumber : a.number = b.number) : a = b :=
  List.inj_on_of_nodup_map (nodup_of_ascending h.ascending) ha hb hnumber

include hp

/-- Encoding a byte can come to read a value in a field exactly if the field has a bit there. -/
theorem canRead_iff_hasBitIn {a : FieldFormat} (ha : a ∈ f.fields.toList) (byte : Nat) :
    f.CanRead byte a.number ↔ a.entry.HasBitIn byte := by
  rw [canRead_iff, h.partsAll_visits]
  constructor
  · rintro ⟨part, hpart, hfield⟩
    obtain ⟨l, hl, rfl⟩ := List.mem_map.mp hpart
    obtain ⟨hl, hreaches⟩ := List.mem_filter.mp hl
    obtain ⟨b, hb, hl⟩ := List.mem_flatMap.mp hl
    obtain rfl := h.eq_of_number_eq hb ha ((Format.field_of_mem_leaves hl).symm.trans hfield)
    -- a leaf has bits, so one that reaches the byte has a bit there
    obtain ⟨hlo, hhi, hpos, -⟩ := (h.field hb).leaf_bounds hl
    have hreaches := of_decide_eq_true hreaches
    rw [FieldLayout.hasBitIn_iff]
    show max b.offset (8 * byte) < min (b.offset + b.format.width) (8 * byte + 8)
    omega
  · rintro ⟨i, hlo, hhi, rfl⟩
    obtain ⟨l, hl, hstart, hstop⟩ := (h.field ha).exists_leaf_covering (hp.field ha) ⟨a.number, []⟩
      (0 + a.offset) (i := i) (by rw [Nat.zero_add]; exact hlo) (by rw [Nat.zero_add]; exact hhi)
    refine ⟨l.part (i / 8), List.mem_map_of_mem (List.mem_filter.mpr ⟨?_, ?_⟩), ?_⟩
    · exact List.mem_flatMap.mpr ⟨a, ha, hl⟩
    · exact decide_eq_true ⟨by omega, by omega⟩
    · exact Format.field_of_mem_leaves hl

end MessageFormat.Sound

/-! ## 4. The table -/

namespace MessageType.Made

variable {m : MessageType} (h : m.Made)

include h

theorem mem_overlapping_iff (byte : UInt64) (e : FieldLayout) :
    e ∈ m.layout.overlapping byte ↔ e ∈ m.layout.entries.toList ∧
      (e.HasBitIn (byte.toNat % 2 ^ 61) ∨ e.EmptyInside (byte.toNat % 2 ^ 61)) := by
  rw [Layout.overlapping, List.mem_filter]
  exact and_congr_right fun he => FieldLayout.overlapsByte_iff
    ((h.stop_entry_le he).trans h.consistent.totalBits_le) byte

end MessageType.Made

/-- The fields that the table of a layout lists for a byte, in ascending order of their numbers.
Wrapped around at `2 ^ 61`, the byte has a bit of the field or lies around the start of a field that
has none.  Below `2 ^ 61`, as long as no field without bits starts inside the byte, the table lists
exactly the fields with a bit in the byte, that is those in which encoding the byte can come to read
a value, and no field behind the message. -/
theorem Layout.overlapping_exact {m : MessageType} (h : m.Made) (byte : UInt64) :
    (m.layout.overlapping byte).Pairwise (fun e e' => e.number < e'.number) ∧
    (∀ e, e ∈ m.layout.overlapping byte ↔ e ∈ m.layout.entries.toList ∧
      (e.HasBitIn (byte.toNat % 2 ^ 61) ∨ e.EmptyInside (byte.toNat % 2 ^ 61))) ∧
    (byte.toNat < 2 ^ 61 →
      (m.byteCount ≤ byte.toNat → m.layout.overlapping byte = []) ∧
      ((∀ e ∈ m.layout.entries.toList, ¬ e.EmptyInside byte.toNat) →
        (∀ e, e ∈ m.layout.overlapping byte ↔
          e ∈ m.layout.entries.toList ∧ ∃ i, e.offset ≤ i ∧ i < e.stop ∧ i / 8 = byte.toNat) ∧
        ∀ e ∈ m.layout.entries.toList,
          e ∈ m.layout.overlapping byte ↔ m.format.CanRead byte.toNat e.number)) := by
  refine ⟨h.ascending_entries.filter _, h.mem_overlapping_iff byte, fun hlt => ?_⟩
  have hmem := h.mem_overlapping_iff byte
  rw [Nat.mod_eq_of_lt hlt] at hmem
  refine ⟨fun hpast => ?_, fun hempty => ?_⟩
  · rw [List.eq_nil_iff_forall_not_mem]
    intro e he
    obtain ⟨he, hover⟩ := (hmem e).mp he
    have hstop := h.stop_entry_le he
    have hcount : m.byteCount = (m.layout.totalBits + 7) / 8 := rfl
    have hbetween := (e.between_iff byte.toNat).mpr hover
    omega
  · have hexact : ∀ e, e ∈ m.layout.overlapping byte ↔
        e ∈ m.layout.entries.toList ∧ e.HasBitIn byte.toNat := by
      intro e
      rw [hmem]
      exact and_congr_right fun he => or_iff_left (hempty e he)
    refine ⟨hexact, fun e he => ?_⟩
    rw [hexact, and_iff_right he]
    rw [h.entries_eq] at he
    obtain ⟨f, hf, rfl⟩ := List.mem_map.mp he
    exact (h.format.1.canRead_iff_hasBitIn h.format.2.1 hf byte.toNat).symm

/-- A message without fields in the middle of a byte, between a level and a count. -/
def markedSchema : SchemaDef where
  messages := [
    ⟨"Mark", []⟩,
    ⟨"Marked", [⟨1, "level", .uint 3⟩, ⟨2, "mark", .named "Mark"⟩, ⟨3, "count", .uint 9⟩]⟩]

theorem Layout.overlapping_exact_marked : ∃ schema m,
    (Schema.compile markedSchema).value = .ok schema ∧ m ∈ schema.messages ∧ m.Made ∧
      (1 : UInt64).toNat < 2 ^ 61 ∧
      (∀ e ∈ m.layout.entries.toList, ¬ e.EmptyInside (1 : UInt64).toNat) ∧
      m.layout.overlapping 1 = [⟨3, "count", 3, 9⟩] ∧ m.format.CanRead 1 3 ∧
      ¬ m.format.CanRead 1 1 ∧ m.byteCount ≤ (2 : UInt64).toNat ∧ m.layout.overlapping 2 = [] := by
  obtain ⟨schema, m, hschema, hm, hlayout⟩ := @Schema.exists_message markedSchema "Marked"
    (fun m => m.layout == ⟨#[⟨1, "level", 0, 3⟩, ⟨2, "mark", 3, 0⟩, ⟨3, "count", 3, 9⟩], 12⟩)
    (by cbv)
  have hmade := Schema.compile_made hschema hm
  have hlayout := eq_of_beq hlayout
  have hcount : m.byteCount ≤ (2 : UInt64).toNat := by
    rw [MessageType.byteCount, hlayout]
    decide
  have hempty : ∀ e ∈ m.layout.entries.toList, ¬ e.EmptyInside (1 : UInt64).toNat := by
    rw [hlayout]
    simp [FieldLayout.EmptyInside]
  obtain ⟨-, -, hone⟩ := Layout.overlapping_exact hmade 1
  obtain ⟨-, -, htwo⟩ := Layout.overlapping_exact hmade 2
  obtain ⟨-, hreads⟩ := (hone (by decide)).2 hempty
  have hlevel := hreads ⟨1, "level", 0, 3⟩ (by rw [hlayout]; decide)
  have hcountField := hreads ⟨3, "count", 3, 9⟩ (by rw [hlayout]; decide)
  refine ⟨schema, m, hschema, hm, hmade, by decide, hempty, by rw [hlayout]; decide, ?_, ?_, hcount,
    (htwo (by decide)).1 hcount⟩
  · exact hcountField.mp (by rw [hlayout]; decide)
  · exact fun hread => absurd (hlevel.mpr hread) (by rw [hlayout]; decide)

-- The mark is listed for the byte in which it starts, without a bit there; and a byte past the end
-- of all messages is taken for the first.
theorem Layout.overlapping_ne_bits_marked : ∃ schema m,
    (Schema.compile markedSchema).value = .ok schema ∧ m ∈ schema.messages ∧ m.Made ∧
      (∃ e ∈ m.layout.overlapping 0, ¬ ∃ i, e.offset ≤ i ∧ i < e.stop ∧ i / 8 = 0) ∧
      m.byteCount ≤ 2 ^ 61 ∧ m.layout.overlapping 2305843009213693952 ≠ [] := by
  obtain ⟨schema, m, hschema, hm, hlayout⟩ := @Schema.exists_message markedSchema "Marked"
    (fun m => m.layout == ⟨#[⟨1, "level", 0, 3⟩, ⟨2, "mark", 3, 0⟩, ⟨3, "count", 3, 9⟩], 12⟩)
    (by cbv)
  have hlayout := eq_of_beq hlayout
  refine ⟨schema, m, hschema, hm, Schema.compile_made hschema hm, ⟨⟨2, "mark", 3, 0⟩, ?_, ?_⟩, ?_, ?_⟩
  · rw [hlayout]
    decide
  · rintro ⟨i, hlo, hhi, -⟩
    exact absurd hhi (Nat.not_lt.mpr hlo)
  · rw [MessageType.byteCount, hlayout]
    decide
  · rw [hlayout]
    decide

end Bitwire
