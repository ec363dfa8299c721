import Bitwire.Proofs.ComputedLayouts
import Bitwire.Proofs.FormatPlaces
import Bitwire.Proofs.StrictDecoding

/-!
# Searches in tables

The values of an enum, the fields of a message and the entries of a layout are kept in order and
searched by bisection.  Each search finds what a walk over the entries finds, in whatever order they
were listed: the values and the numbers are sorted, and the ends of fields ascend with the numbers
where the fields follow each other without gaps, ties included at fields without any bits.
-/

namespace Bitwire

/-! ## 1. Entries with different keys -/

section

variable {α κ : Type} [BEq κ] [LawfulBEq κ] {key : α → κ} {xs : List α}

theorem find?_eq_some_iff_of_nodup (h : (xs.map key).Nodup) {target : κ} {a : α} :
    xs.find? (key · == target) = some a ↔ a ∈ xs ∧ key a = target := by
  constructor
  · intro hfind
    have hkey := List.find?_some hfind
    exact ⟨List.mem_of_find?_eq_some hfind, eq_of_beq hkey⟩
  · rintro ⟨ha, rfl⟩
    exact find?_of_nodup h ha

-- In another order the same entry is found.
theorem find?_of_perm {ys : List α} (hperm : ys.Perm xs) (h : (xs.map key).Nodup) (target : κ) :
    ys.find? (key · == target) = xs.find? (key · == target) := by
  have hys := (hperm.map key).nodup_iff.mpr h
  apply Option.ext
  intro a
  rw [find?_eq_some_iff_of_nodup hys, find?_eq_some_iff_of_nodup h, hperm.mem_iff]

end

/-! ## 2. The values of an enum -/

theorem EnumFormat.contains_ofValues_iff {name : String} {bits : Nat} {extensible : Bool}
    {values : List UInt64} {value : UInt64} :
    (ofValues name bits extensible values).contains value = true ↔ value ∈ values := by
  rw [contains_iff (ofValues_ascending name bits extensible values), mem_ofValues]

namespace EnumType

theorem contains_iff {e : EnumType} {value : UInt64} :
    e.contains value = true ↔ value ∈ e.fields.map EnumValue.value := by
  simp [contains]

theorem isSome_nameOf?_iff {e : EnumType} {value : UInt64} :
    (e.nameOf? value).isSome = true ↔ value ∈ e.fields.map EnumValue.value := by
  simp [nameOf?]

end EnumType

/-! ## 3. The fields of a message -/

namespace MessageFormat

/-- Fields with different numbers that follow each other without gaps once they stand in the order
of their numbers. -/
structure Contiguous (fields : List FieldFormat) : Prop where
  numbers_nodup : (fields.map PlacedField.number).Nodup
  gapless : ∃ sorted : List FieldFormat, sorted.Perm fields ∧
    (sorted.Pairwise fun f g => f.number ≤ g.number) ∧
    sorted.IsChain fun f g => f.stop = g.offset

/-- A message format that answers what is asked about its fields as a walk over a list of these
would. -/
structure Tabulates (m : MessageFormat) (fields : List FieldFormat) : Prop where
  perm : m.fields.toList.Perm fields
  ascending : m.fields.toList.Pairwise fun f g => f.number < g.number
  field?_eq : ∀ number, m.field? number = fields.find? (·.number == number)
  field?_eq_some_iff : ∀ number f, m.field? number = some f ↔ f ∈ fields ∧ f.number = number
  fieldIndex?_eq_some_iff : ∀ number i,
    m.fieldIndex? number = some i ↔ ∃ f, m.fields[i]? = some f ∧ f.number = number
  /-- The number of fields that end at or before a bit. -/
  endedBefore_eq : ∀ lo, m.endedBefore lo = fields.countP fun f => decide (f.stop ≤ lo)
  /-- These fields precede all the others. -/
  stop_le_iff : ∀ lo i f, m.fields[i]? = some f → (f.stop ≤ lo ↔ i < m.endedBefore lo)

section

variable {m : MessageFormat} (hasc : m.fields.toList.Pairwise fun f g => f.number < g.number)

include hasc in
theorem fieldIndex?_eq_some_iff_of_ascending (number : UInt16) (i : Nat) :
    m.fieldIndex? number = some i ↔ ∃ f, m.fields[i]? = some f ∧ f.number = number := by
  constructor
  · exact Bisect.of_indexOf?
  · rintro ⟨f, hf, rfl⟩
    rw [← Array.getElem?_toList, List.getElem?_eq_some_iff] at hf
    obtain ⟨hi, rfl⟩ := hf
    have hsplit : m.fields.toList =
        m.fields.toList.take i ++ m.fields.toList[i] :: m.fields.toList.drop (i + 1) := by
      rw [List.getElem_cons_drop, List.take_append_drop]
    rw [fieldIndex?_of_ascending hasc hsplit, List.length_take, Nat.min_eq_left (Nat.le_of_lt hi)]

variable (h : m.fields.toList.Pairwise fun f g => f.stop ≤ g.offset)

include h

theorem endedBefore_eq_countP (lo : Nat) :
    m.endedBefore lo = m.fields.toList.countP fun f => decide (f.stop ≤ lo) := by
  obtain ⟨front, back, hsplit, hended, hfront, hback⟩ := exists_split_endedBefore h lo
  have hall : front.countP (fun f => decide (f.stop ≤ lo)) = front.length :=
    List.countP_eq_length.mpr fun f hf => decide_eq_true (hfront f hf)
  have hnone : back.countP (fun f => decide (f.stop ≤ lo)) = 0 :=
    List.countP_eq_zero.mpr fun f hf hstop => hback f hf (of_decide_eq_true hstop)
  rw [hended, hsplit, List.countP_append, hall, hnone, Nat.add_zero]

theorem stop_le_iff_of_disjoint (lo i : Nat) (f : FieldFormat) (hf : m.fields[i]? = some f) :
    f.stop ≤ lo ↔ i < m.endedBefore lo := by
  obtain ⟨front, back, hsplit, hended, hfront, hback⟩ := exists_split_endedBefore h lo
  rw [← Array.getElem?_toList, hsplit] at hf
  rw [hended]
  by_cases hi : i < front.length
  · rw [List.getElem?_append_left hi] at hf
    exact iff_of_true (hfront f (List.mem_of_getElem? hf)) hi
  · rw [List.getElem?_append_right (by omega)] at hf
    exact iff_of_false (hback f (List.mem_of_getElem? hf)) hi

end

section

variable {fields : List FieldFormat} (name : String)

theorem ofFields_perm : (ofFields name fields).fields.toList.Perm fields :=
  List.mergeSort_perm fields _

theorem ofFields_sorted :
    (ofFields name fields).fields.toList.Pairwise fun f g => f.number ≤ g.number :=
  Bisect.pairwise_mergeSort PlacedField.number fields

-- Different numbers that are sorted ascend.
theorem ofFields_ascending (h : (fields.map PlacedField.number).Nodup) :
    (ofFields name fields).fields.toList.Pairwise fun f g => f.number < g.number := by
  have hnumbers := ((ofFields_perm name).map PlacedField.number).nodup_iff.mpr h
  have hne := List.pairwise_map.mp hnumbers
  exact ((ofFields_sorted name).and hne).imp fun h => UInt16.lt_of_le_of_ne h.1 h.2

/-- The format of a message does not depend on the order in which its fields are listed. -/
theorem ofFields_of_perm (h : (fields.map PlacedField.number).Nodup) {fields' : List FieldFormat}
    (hperm : fields'.Perm fields) : ofFields name fields' = ofFields name fields := by
  have hsorted : (ofFields name fields').fields.toList = (ofFields name fields).fields.toList := by
    apply Bisect.eq_of_perm _ _ (ofFields_sorted name) (ofFields_sorted name)
    · exact (ofFields_perm name).trans (hperm.trans (ofFields_perm name).symm)
    · exact ((ofFields_perm name).map _).nodup_iff.mpr h
  have hsort : (fields'.mergeSort fun f g => decide (f.number ≤ g.number)) =
      fields.mergeSort fun f g => decide (f.number ≤ g.number) := hsorted
  unfold ofFields
  rw [hsort]

namespace Contiguous

variable (h : Contiguous fields)

include h

theorem disjoint : (ofFields name fields).fields.toList.Pairwise fun f g => f.stop ≤ g.offset := by
  obtain ⟨sorted, hperm, hsorted, hgapless⟩ := h.gapless
  have heq : (ofFields name fields).fields.toList = sorted := by
    apply Bisect.eq_of_perm _ _ (ofFields_sorted name) hsorted
    · exact (ofFields_perm name).trans hperm.symm
    · exact (hperm.map _).nodup_iff.mpr h.numbers_nodup
  rw [heq]
  exact disjoint_of_gapless hgapless

/-- The format of a message made of contiguous fields is a table of these fields. -/
theorem tabulates : (ofFields name fields).Tabulates fields := by
  have hperm : (ofFields name fields).fields.toList.Perm fields := ofFields_perm name
  have hasc := ofFields_ascending name h.numbers_nodup
  have hdisjoint := h.disjoint name
  have hfield : ∀ number, (ofFields name fields).field? number =
      fields.find? (·.number == number) := by
    intro number
    rw [field?_of_ascending hasc, find?_of_perm hperm h.numbers_nodup]
  constructor
  case perm => exact hperm
  case ascending => exact hasc
  case field?_eq => exact hfield
  case field?_eq_some_iff =>
    intro number f
    rw [hfield, find?_eq_some_iff_of_nodup h.numbers_nodup]
  case fieldIndex?_eq_some_iff => exact fieldIndex?_eq_some_iff_of_ascending hasc
  case endedBefore_eq =>
    intro lo
    rw [endedBefore_eq_countP hdisjoint, hperm.countP_eq]
  case stop_le_iff => exact stop_le_iff_of_disjoint hdisjoint

end Contiguous

end

end MessageFormat

/-! ## 4. All tables -/

/-- What bisection finds is what was listed, in whatever order: a value is found among the values of
an enum if it is declared, a field of a message by its number and by where it ends, and an entry of
a layout by its number. -/
theorem Bisect.found_iff_listed :
    (∀ (name : String) (bits : Nat) (extensible : Bool) (values : List UInt64) (value : UInt64),
      (EnumFormat.ofValues name bits extensible values).contains value = true ↔ value ∈ values) ∧
    (∀ (e : EnumType) (value : UInt64), e.format.contains value = e.contains value ∧
      e.contains value = (e.nameOf? value).isSome) ∧
    (∀ (name : String) (fields : List FieldFormat), MessageFormat.Contiguous fields →
      (MessageFormat.ofFields name fields).Tabulates fields ∧
      ∀ fields', fields'.Perm fields →
        MessageFormat.ofFields name fields' = MessageFormat.ofFields name fields) ∧
    ∀ (message : String) (fields : List SizedField) (layout : Layout),
      Layout.compute message fields = .ok layout → ∀ number,
        layout.get? number = layout.entries.toList.find? (·.number == number) ∧
        ∀ entry, layout.get? number = some entry ↔
          entry ∈ layout.entries.toList ∧ entry.number = number := by
  refine ⟨fun _ _ _ _ _ => EnumFormat.contains_ofValues_iff, fun e value => ⟨?_, ?_⟩,
    fun name fields h => ⟨h.tabulates name, fun fields' => ?_⟩,
    fun message fields layout hlayout number => ?_⟩
  · rw [Bool.eq_iff_iff, EnumType.contains_iff]
    exact EnumFormat.contains_ofValues_iff
  · rw [Bool.eq_iff_iff, EnumType.contains_iff, EnumType.isSome_nameOf?_iff]
  · exact MessageFormat.ofFields_of_perm name h.numbers_nodup
  · have hasc := (Layout.compute_places hlayout).ascending
    have hget := Layout.get?_eq_find? hasc number
    refine ⟨hget, fun entry => ?_⟩
    rw [hget, find?_eq_some_iff_of_nodup (nodup_of_ascending hasc)]

/-- Fields that are listed out of order and start behind bit 0, two of them without any bits. -/
def trackFields : List FieldFormat :=
  [⟨7, "level", 15, .int 10⟩, ⟨9, "pad", 25, .array .bool 3⟩] ++
    [⟨1, "kind", 3, .uint 12⟩, ⟨2, "mark", 15, .message ⟨"Mark", #[], 0⟩⟩,
      ⟨4, "marks", 15, .array (.message ⟨"Mark", #[], 0⟩) 5⟩]

theorem Bisect.found_iff_listed_track :
    (EnumFormat.ofValues "Mode" 4 false [7, 1, 7, 3]).contains 7 = true ∧
    MessageFormat.Contiguous trackFields ∧
    (MessageFormat.ofFields "Track" trackFields).endedBefore 15 = 3 ∧
    (MessageFormat.ofFields "Track" trackFields).field? 3 = none ∧
    MessageFormat.ofFields "Track" trackFields.reverse =
      MessageFormat.ofFields "Track" trackFields ∧
    ∃ layout, Layout.compute "Track" [⟨7, "level", 10⟩, ⟨1, "kind", 12⟩] = .ok layout ∧
      layout.get? 7 = some ⟨7, "level", 12, 10⟩ := by
  obtain ⟨hvalues, -, hfields, hentries⟩ := Bisect.found_iff_listed
  have hcontiguous : MessageFormat.Contiguous trackFields :=
    ⟨by decide, _, List.perm_append_comm, by decide, by decide⟩
  obtain ⟨htable, hperm⟩ := hfields "Track" trackFields hcontiguous
  have hlayout : Layout.compute "Track" [⟨7, "level", 10⟩, ⟨1, "kind", 12⟩] =
      .ok ⟨#[⟨1, "kind", 0, 12⟩, ⟨7, "level", 12, 10⟩], 22⟩ := by cbv
  refine ⟨(hvalues _ _ _ _ _).mpr (by decide), hcontiguous, ?_, ?_,
    hperm _ (List.reverse_perm _), _, hlayout, ?_⟩
  · rw [htable.endedBefore_eq]
    rfl
  · rw [htable.field?_eq]
    rfl
  · rw [(hentries _ _ _ hlayout 7).2]
    exact ⟨List.mem_cons_of_mem _ List.mem_cons_self, rfl⟩

end Bitwire
