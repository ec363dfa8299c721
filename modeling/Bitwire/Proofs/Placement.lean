import Bitwire.Proofs.Bisection
import Bitwire.Schema.WireType

/-!
# Where fields are placed

A layout that was computed has one entry for every field, in ascending order of the numbers, and
each starts where the one before it ends.  The format of a message type lists the same fields at
the same places.
-/

namespace Bitwire

-- Where keys differ, the key of an element finds the element.
theorem find?_of_nodup {α β : Type} [BEq β] [LawfulBEq β] {l : List α} {key : α → β}
    (h : (l.map key).Nodup) {a : α} (ha : a ∈ l) : l.find? (key · == key a) = some a := by
  induction l with
  | nil => exact absurd ha List.not_mem_nil
  | cons b rest ih =>
    rw [List.map_cons, List.nodup_cons] at h
    rcases List.mem_cons.mp ha with rfl | ha
    · exact List.find?_cons_of_pos (beq_self_eq_true _)
    · have hne : key b ≠ key a := fun heq => h.1 (heq ▸ List.mem_map_of_mem ha)
      rw [List.find?_cons_of_neg (by rwa [beq_iff_eq])]
      exact ih h.2 ha

-- Numbers that ascend are different.
theorem nodup_of_ascending {α : Type} {number : α → UInt16} {l : List α}
    (h : l.Pairwise fun a b => number a < number b) : (l.map number).Nodup :=
  List.pairwise_map.mpr (h.imp UInt16.ne_of_lt)

namespace Layout

/-! ## 1. Fields one after the other -/

/-- The places of fields that follow each other from bit `offset` on. -/
def placed : (offset : Nat) → List SizedField → List FieldLayout
  | _, [] => []
  | offset, f :: rest => ⟨f.number, f.name, offset, f.width⟩ :: placed (offset + f.width) rest

theorem placed_append (front back : List SizedField) (offset : Nat) :
    placed offset (front ++ back) =
      placed offset front ++ placed (offset + (front.map SizedField.width).sum) back := by
  induction front generalizing offset with
  | nil => rfl
  | cons f front ih =>
    rw [List.cons_append, placed, placed, ih, List.cons_append, List.map_cons, List.sum_cons,
      Nat.add_assoc]

theorem mem_placed {e : FieldLayout} {fields : List SizedField} {offset : Nat}
    (h : e ∈ placed offset fields) : ∃ f ∈ fields, e.number = f.number := by
  induction fields generalizing offset with
  | nil => exact absurd h List.not_mem_nil
  | cons f rest ih =>
    rcases List.mem_cons.mp h with rfl | h
    · exact ⟨f, List.mem_cons_self, rfl⟩
    · obtain ⟨g, hg, he⟩ := ih h
      exact ⟨g, List.mem_cons_of_mem _ hg, he⟩

theorem map_number_placed (offset : Nat) (fields : List SizedField) :
    (placed offset fields).map FieldLayout.number = fields.map SizedField.number := by
  induction fields generalizing offset with
  | nil => rfl
  | cons f rest ih => rw [placed, List.map_cons, List.map_cons, ih]

-- Bisection finds the entry that a walk over a layout in order finds.
theorem get?_eq_find? {layout : Layout}
    (hasc : layout.entries.toList.Pairwise fun e e' => e.number < e'.number) (number : UInt16) :
    layout.get? number = layout.entries.toList.find? (·.number == number) := by
  rw [← Bisect.find?_of_ascending (hasc.imp fun hlt => UInt16.not_le.mpr hlt), Array.toArray_toList]
  rfl

theorem get?_of_mem {layout : Layout}
    (hasc : layout.entries.toList.Pairwise fun e e' => e.number < e'.number) {e : FieldLayout}
    (he : e ∈ layout.entries.toList) : layout.get? e.number = some e := by
  rw [get?_eq_find? hasc, find?_of_nodup (nodup_of_ascending hasc) he]

/-! ## 2. Computed layouts -/

-- What a placement that succeeded says: where the fields are, that no number is repeated next to
-- itself, and that there was room.
theorem placeSorted_ok {message : String} {fields : List SizedField} {offset total : Nat}
    {last : Option UInt16} {entries : List FieldLayout} (hoffset : offset ≤ maxBits)
    (h : placeSorted message fields offset last = .ok (entries, total)) :
    entries = placed offset fields ∧ total = offset + (fields.map SizedField.width).sum ∧
      total ≤ maxBits ∧ fields.IsChain (fun f g => f.number ≠ g.number) ∧
      ∀ f ∈ fields.head?, last ≠ some f.number := by
  induction fields generalizing offset last entries with
  | nil =>
    rw [placeSorted] at h
    obtain ⟨rfl, rfl⟩ := Prod.mk.inj (Except.ok.inj h)
    exact ⟨rfl, rfl, hoffset, List.IsChain.nil, fun f hf => nomatch hf⟩
  | cons f rest ih =>
    rw [placeSorted] at h
    split at h
    next => exact nomatch h
    next hlast =>
      split at h
      next => exact nomatch h
      next hroom =>
        -- below the largest message no width is cut off
        have hstop : min (offset + f.width) widthCeiling = offset + f.width := by
          have hlt : maxBits < widthCeiling := by decide
          omega
        rw [hstop] at h hroom
        split at h
        next rest' total' hrest =>
          obtain ⟨rfl, rfl⟩ := Prod.mk.inj (Except.ok.inj h)
          obtain ⟨rfl, rfl, htotal, hchain, hhead⟩ := ih (by omega) hrest
          refine ⟨rfl, ?_, htotal, ?_, ?_⟩
          · rw [List.map_cons, List.sum_cons, Nat.add_assoc]
          · refine List.isChain_cons.mpr ⟨fun g hg heq => ?_, hchain⟩
            exact hhead g hg (congrArg some heq)
          · intro g hg
            rw [← Option.some.inj hg]
            exact hlast
        next => exact nomatch h

-- The fields of a message in ascending order of their numbers.
theorem sortFields_pairwise (fields : List SizedField) :
    (sortFields fields).Pairwise fun f g => f.number ≤ g.number :=
  Bisect.pairwise_mergeSort SizedField.number fields

/-- A computed layout lists the fields by number, none twice, one after the other. -/
theorem compute_ok {message : String} {fields : List SizedField} {layout : Layout}
    (h : compute message fields = .ok layout) :
    layout.entries.toList = placed 0 (sortFields fields) ∧
      layout.totalBits = ((sortFields fields).map SizedField.width).sum ∧
      layout.totalBits ≤ maxBits ∧
      (sortFields fields).Pairwise fun f g => f.number < g.number := by
  rw [compute] at h
  cases hplace : placeSorted message (sortFields fields) 0 none with
  | error e =>
    rw [hplace] at h
    exact nomatch h
  | ok result =>
    obtain ⟨entries, total⟩ := result
    rw [hplace] at h
    obtain rfl := Except.ok.inj h
    obtain ⟨rfl, rfl, htotal, hchain, -⟩ := placeSorted_ok (Nat.zero_le _) hplace
    refine ⟨rfl, by rw [Nat.zero_add], htotal, ?_⟩
    -- sorted neighbours that differ ascend
    have hle := (sortFields_pairwise fields).isChain
    have hlt : (sortFields fields).IsChain fun f g => f.number < g.number := by
      refine List.isChain_iff_getElem.mpr fun i hi => ?_
      exact UInt16.lt_of_le_of_ne (List.isChain_iff_getElem.mp hle i hi)
        (List.isChain_iff_getElem.mp hchain i hi)
    let R : SizedField → SizedField → Prop := fun f g => f.number < g.number
    have : Trans R R R := ⟨fun hfg hgk => UInt16.lt_trans hfg hgk⟩
    exact hlt.pairwise

end Layout

/-! ## 3. Message types -/

namespace MessageType

theorem checkNames_ok {message : String} {before : List String} {fields : List Field}
    (h : checkNames message before fields = .ok ()) :
    (fields.map FieldOf.name).Nodup ∧ ∀ f ∈ fields, f.name ∉ before := by
  induction fields generalizing before with
  | nil => exact ⟨List.nodup_nil, fun f hf => absurd hf List.not_mem_nil⟩
  | cons f rest ih =>
    rw [checkNames] at h
    split at h
    next => exact nomatch h
    next hnew =>
      obtain ⟨hnodup, hrest⟩ := ih h
      have hfresh : f.name ∉ before := fun hmem => hnew (List.contains_iff_mem.mpr hmem)
      refine ⟨?_, List.forall_mem_cons.mpr ⟨hfresh, fun g hg hmem => ?_⟩⟩
      · rw [List.map_cons, List.nodup_cons]
        refine ⟨fun hmem => ?_, hnodup⟩
        obtain ⟨g, hg, hname⟩ := List.mem_map.mp hmem
        exact hrest g hg (hname ▸ List.mem_cons_self)
      · exact hrest g hg (List.mem_cons_of_mem _ hmem)

/-- The formats of fields that follow each other from bit `offset` on. -/
def placedFields : (offset : Nat) → List Field → List FieldFormat
  | _, [] => []
  | offset, f :: rest =>
    ⟨f.number, f.name, offset, f.type.format⟩ :: placedFields (offset + f.type.width) rest

-- Each entry of a layout takes the format of its own field.
theorem placedFormats_placed {fields : List Field} (h : (fields.map FieldOf.number).Nodup)
    {sorted : List Field} (hsub : ∀ f ∈ sorted, f ∈ fields) (offset : Nat) :
    placedFormats fields (Layout.placed offset (sorted.map FieldOf.sized)) =
      placedFields offset sorted := by
  induction sorted generalizing offset with
  | nil => rfl
  | cons f rest ih =>
    have hfind : fields.find? (fun g => g.number == f.number) = some f :=
      find?_of_nodup h (hsub f List.mem_cons_self)
    have hrest := ih (fun g hg => hsub g (List.mem_cons_of_mem _ hg)) (offset + f.type.width)
    rw [List.map_cons, Layout.placed, placedFields, ← hrest]
    apply List.filterMap_cons_some
    change (fields.find? fun g => g.number == f.number).map _ = _
    rw [hfind]
    rfl

-- The fields of a message that is made, by number.
theorem sortFields_sized (m : MessageType) :
    Layout.sortFields (m.fields.map FieldOf.sized) = m.sortedFields.map FieldOf.sized := by
  rw [Layout.sortFields, sortedFields]
  symm
  apply List.map_mergeSort
  exact fun f _ g _ => rfl

theorem mem_sortedFields {m : MessageType} {f : Field} : f ∈ m.sortedFields ↔ f ∈ m.fields :=
  (List.mergeSort_perm _ _).mem_iff

/-- What the maker of message types checks and computes. -/
structure Consistent (m : MessageType) : Prop where
  names_nodup : (m.fields.map FieldOf.name).Nodup
  ascending : m.sortedFields.Pairwise fun f g => f.number < g.number
  entries_eq : m.layout.entries.toList = Layout.placed 0 (m.sortedFields.map FieldOf.sized)
  totalBits_eq : m.layout.totalBits = (m.sortedFields.map fun f => f.type.width).sum
  totalBits_le : m.layout.totalBits ≤ Layout.maxBits
  format_eq : m.format = .ofFields m.name (placedFields 0 m.sortedFields)

theorem make_ok {name : String} {fields : List Field} {m : MessageType}
    (h : make name fields = .ok m) : m.name = name ∧ m.fields = fields ∧ m.Consistent := by
  rw [make] at h
  cases hnames : checkNames name [] fields with
  | error e =>
    rw [hnames] at h
    exact nomatch h
  | ok =>
    rw [hnames] at h
    cases hlayout : Layout.compute name (fields.map FieldOf.sized) with
    | error e =>
      rw [hlayout] at h
      exact nomatch h
    | ok layout =>
      rw [hlayout] at h
      obtain rfl := Except.ok.inj h
      obtain ⟨hentries, htotal, hle, hasc⟩ := Layout.compute_ok hlayout
      let m : MessageType := ⟨name, fields, layout,
        .ofFields name (placedFormats fields layout.entries.toList)⟩
      rw [m.sortFields_sized] at hentries htotal hasc
      have hasc' := List.pairwise_map.mp hasc
      -- the numbers are different, so every entry finds its own field
      have hnumbers : (fields.map FieldOf.number).Nodup :=
        ((List.mergeSort_perm fields _).map _).nodup_iff.mp (nodup_of_ascending hasc')
      refine ⟨rfl, rfl, (checkNames_ok hnames).1, hasc', hentries, ?_, hle, ?_⟩
      · rw [htotal, List.map_map]
        rfl
      · have hplaced := placedFormats_placed hnumbers
          (fun f hf => (mem_sortedFields (m := m)).mp hf) 0
        rw [hentries]
        exact congrArg (MessageFormat.ofFields name) hplaced

/-! ## 4. Offsets -/

/-- How many bits the fields numbered below a field occupy.  The layout has the field start there
(`Consistent.offsetOf?_eq`). -/
def precedingBits (m : MessageType) (f : Field) : Nat :=
  ((m.fields.filter fun g => decide (g.number < f.number)).map fun g => g.type.width).sum

theorem mem_placedFields_append (front back : List Field) (f : Field) (offset : Nat) :
    ⟨f.number, f.name, offset + (front.map fun g => g.type.width).sum, f.type.format⟩ ∈
      placedFields offset (front ++ f :: back) := by
  induction front generalizing offset with
  | nil => exact List.mem_cons_self
  | cons g front ih =>
    rw [List.cons_append, placedFields, List.map_cons, List.sum_cons, ← Nat.add_assoc]
    exact List.mem_cons_of_mem _ (ih _)

namespace Consistent

variable {m : MessageType} (h : m.Consistent)

include h

-- The fields in front of a field in the order of the numbers are those with lower numbers.
theorem precedingBits_eq {front back : List Field} {f : Field}
    (hsplit : m.sortedFields = front ++ f :: back) :
    m.precedingBits f = (front.map fun g => g.type.width).sum := by
  have hasc := h.ascending
  rw [hsplit] at hasc
  obtain ⟨-, hback, hfront⟩ := List.pairwise_append.mp hasc
  have hfilter : m.sortedFields.filter (fun g => decide (g.number < f.number)) = front := by
    rw [hsplit, List.filter_append, List.filter_eq_self.mpr fun g hg =>
      decide_eq_true (hfront g hg f List.mem_cons_self), List.filter_eq_nil_iff.mpr,
      List.append_nil]
    intro g hg hlt
    have hlt := of_decide_eq_true hlt
    rcases List.mem_cons.mp hg with rfl | hg
    · exact UInt16.lt_irrefl _ hlt
    · exact UInt16.lt_irrefl _ (UInt16.lt_trans hlt ((List.pairwise_cons.mp hback).1 g hg))
  have hperm : (m.fields.filter fun g => decide (g.number < f.number)).Perm front := by
    rw [← hfilter]
    exact (List.mergeSort_perm m.fields _).symm.filter _
  exact (hperm.map _).sum_nat

theorem exists_split {f : Field} (hf : f ∈ m.fields) : ∃ front back,
    m.sortedFields = front ++ f :: back ∧
      m.precedingBits f = (front.map fun g => g.type.width).sum := by
  obtain ⟨front, back, hsplit⟩ := List.append_of_mem (mem_sortedFields.mpr hf)
  exact ⟨front, back, hsplit, h.precedingBits_eq hsplit⟩

-- The format of a field starts where the fields with lower numbers end.
theorem mem_placed {f : Field} (hf : f ∈ m.fields) :
    ⟨f.number, f.name, m.precedingBits f, f.type.format⟩ ∈ placedFields 0 m.sortedFields := by
  obtain ⟨front, back, hsplit, hbits⟩ := h.exists_split hf
  rw [hsplit, hbits]
  have hmem := mem_placedFields_append front back f 0
  rwa [Nat.zero_add] at hmem

/-- The layout puts a field where the fields with lower numbers end. -/
theorem offsetOf?_eq {f : Field} (hf : f ∈ m.fields) :
    m.layout.offsetOf? f.number = some (m.precedingBits f) := by
  obtain ⟨front, back, hsplit, hbits⟩ := h.exists_split hf
  have hasc : m.layout.entries.toList.Pairwise fun e e' => e.number < e'.number := by
    have hnumbers := List.pairwise_map.mpr h.ascending
    rw [h.entries_eq]
    rw [← List.pairwise_map, Layout.map_number_placed, List.map_map]
    exact hnumbers
  have hmem : ⟨f.number, f.name, m.precedingBits f, f.type.width⟩ ∈ m.layout.entries.toList := by
    rw [h.entries_eq, hsplit, List.map_append, Layout.placed_append, List.map_map, Nat.zero_add,
      hbits]
    exact List.mem_append_right _ List.mem_cons_self
  rw [Layout.offsetOf?, Layout.get?_of_mem hasc hmem, Option.map_some]

end Consistent

end MessageType

end Bitwire
