import Bitwire.Proofs.ExactWidths

/-!
# Computed layouts

Fields can be placed exactly if their numbers differ and their exact widths have room in a message.
Then every field has one entry, each entry starts where the fields with lower numbers end, and all
offsets and widths are 32-bit words.  The order in which the fields are listed leaves no trace.
-/

namespace Bitwire

/-- The field with its exact width. -/
def FieldOf.exact (f : Field) : SizedField :=
  ⟨f.number, f.name, f.type.exactWidth⟩

/-- The field that an entry places. -/
def FieldLayout.sized (e : FieldLayout) : SizedField :=
  ⟨e.number, e.name, e.width⟩

namespace Layout

/-! ## 1. Placed fields -/

theorem map_sized_placed (offset : Nat) (fields : List SizedField) :
    (placed offset fields).map FieldLayout.sized = fields := by
  induction fields generalizing offset with
  | nil => rfl
  | cons f rest ih => rw [placed, List.map_cons, ih]; rfl

theorem isChain_placed (offset : Nat) (fields : List SizedField) :
    (placed offset fields).IsChain fun e e' => e.stop = e'.offset := by
  induction fields generalizing offset with
  | nil => exact List.IsChain.nil
  | cons f rest ih =>
    rw [placed, List.isChain_cons]
    refine ⟨fun e he => ?_, ih _⟩
    cases rest with
    | nil => cases he
    | cons g rest =>
      obtain rfl := Option.some.inj he
      rfl

theorem stop_le_of_mem_placed {e : FieldLayout} {offset : Nat} {fields : List SizedField}
    (h : e ∈ placed offset fields) : e.stop ≤ offset + (fields.map SizedField.width).sum := by
  induction fields generalizing offset with
  | nil => exact absurd h List.not_mem_nil
  | cons f rest ih =>
    rw [List.map_cons, List.sum_cons, ← Nat.add_assoc]
    rcases List.mem_cons.mp h with rfl | h
    · exact Nat.le_add_right _ _
    · exact ih h

-- An entry starts where the fields with lower numbers end.
theorem offset_of_mem_placed {e : FieldLayout} {offset : Nat} {fields : List SizedField}
    (hasc : fields.Pairwise fun f g => f.number < g.number) (h : e ∈ placed offset fields) :
    e.offset =
      offset + ((fields.filter fun f => decide (f.number < e.number)).map SizedField.width).sum := by
  induction fields generalizing offset with
  | nil => exact absurd h List.not_mem_nil
  | cons f rest ih =>
    obtain ⟨hf, hrest⟩ := List.pairwise_cons.mp hasc
    rcases List.mem_cons.mp h with rfl | h
    · -- no field has a lower number than the first
      rw [List.filter_eq_nil_iff.mpr, List.map_nil, List.sum_nil, Nat.add_zero]
      refine List.forall_mem_cons.mpr ⟨fun hlt => ?_, fun g hg hlt => ?_⟩
      · exact UInt16.lt_irrefl _ (of_decide_eq_true hlt)
      · exact UInt16.lt_asymm (hf g hg) (of_decide_eq_true hlt)
    · obtain ⟨g, hg, hnumber⟩ := mem_placed h
      have hlt : f.number < e.number := hnumber ▸ hf g hg
      rw [List.filter_cons, if_pos (decide_eq_true hlt), List.map_cons, List.sum_cons, ← Nat.add_assoc]
      exact ih hrest h

/-! ## 2. Layouts of fields -/

/-- A layout that places fields: all of them, in ascending order of their numbers, one after the
other from bit 0 on, and with words of 32 bits. -/
structure Places (layout : Layout) (fields : List SizedField) : Prop where
  perm : (layout.entries.toList.map FieldLayout.sized).Perm fields
  ascending : layout.entries.toList.Pairwise fun e e' => e.number < e'.number
  first : ∀ e ∈ layout.entries.toList.head?, e.offset = 0
  contiguous : layout.entries.toList.IsChain fun e e' => e.stop = e'.offset
  offset_eq : ∀ e ∈ layout.entries.toList, e.offset =
    ((fields.filter fun f => decide (f.number < e.number)).map SizedField.width).sum
  words : ∀ e ∈ layout.entries.toList,
    e.offset.toUInt32.toNat = e.offset ∧ e.width.toUInt32.toNat = e.width
  totalBits_eq : layout.totalBits = (fields.map SizedField.width).sum
  totalBits_word : layout.totalBits.toUInt32.toNat = layout.totalBits
  found : ∀ e ∈ layout.entries.toList, layout.offsetOf? e.number = some e.offset
  isSome_offsetOf? : ∀ number, (layout.offsetOf? number).isSome = true ↔
    number ∈ fields.map SizedField.number

theorem toNat_toUInt32_of_le {n : Nat} (h : n ≤ maxBits) : n.toUInt32.toNat = n := by
  have hsize : maxBits < UInt32.size := by decide
  exact UInt32.toNat_ofNat_of_lt (by omega)

theorem isSome_get?_iff {layout : Layout}
    (hasc : layout.entries.toList.Pairwise fun e e' => e.number < e'.number) (number : UInt16) :
    (layout.get? number).isSome = true ↔ number ∈ layout.entries.toList.map FieldLayout.number := by
  rw [get?_eq_find? hasc, List.find?_isSome, List.mem_map]
  simp only [beq_iff_eq]

theorem compute_ok_iff (message : String) (fields : List SizedField) :
    (∃ layout, compute message fields = .ok layout) ↔
      (fields.map SizedField.number).Nodup ∧ (fields.map SizedField.width).sum ≤ maxBits := by
  have hperm : (sortFields fields).Perm fields := List.mergeSort_perm _ _
  refine ⟨fun ⟨layout, h⟩ => ?_, fun ⟨hnumbers, hroom⟩ => compute_eq_ok hnumbers hroom⟩
  obtain ⟨-, htotal, hle, hasc⟩ := compute_ok h
  refine ⟨(hperm.map _).nodup_iff.mp (nodup_of_ascending hasc), ?_⟩
  rwa [← (hperm.map SizedField.width).sum_nat, ← htotal]

/-- What a computed layout says of the fields. -/
theorem compute_places {message : String} {fields : List SizedField} {layout : Layout}
    (h : compute message fields = .ok layout) : layout.Places fields := by
  have hperm : (sortFields fields).Perm fields := List.mergeSort_perm _ _
  obtain ⟨hentries, htotal, hle, hasc⟩ := compute_ok h
  have hsized : layout.entries.toList.map FieldLayout.sized = sortFields fields := by
    rw [hentries, map_sized_placed]
  have hascending : layout.entries.toList.Pairwise fun e e' => e.number < e'.number := by
    rw [← hsized, List.pairwise_map] at hasc
    exact hasc
  have hstop : ∀ e ∈ layout.entries.toList, e.stop ≤ layout.totalBits := by
    intro e he
    rw [htotal, ← Nat.zero_add (List.sum _)]
    exact stop_le_of_mem_placed (hentries ▸ he)
  refine ⟨hsized ▸ hperm, hascending, fun e he => ?_, ?_, fun e he => ?_, fun e he => ?_, ?_,
    toNat_toUInt32_of_le hle, fun e he => ?_, fun number => ?_⟩
  · rw [hentries] at he
    cases hsorted : sortFields fields with
    | nil => rw [hsorted] at he; cases he
    | cons f rest =>
      rw [hsorted] at he
      obtain rfl := Option.some.inj he
      rfl
  · rw [hentries]
    exact isChain_placed 0 _
  · have hoffset := offset_of_mem_placed hasc (hentries ▸ he)
    rw [Nat.zero_add] at hoffset
    rw [hoffset]
    exact ((hperm.filter _).map SizedField.width).sum_nat
  · have hwords : e.offset + e.width ≤ layout.totalBits := hstop e he
    exact ⟨toNat_toUInt32_of_le (by omega), toNat_toUInt32_of_le (by omega)⟩
  · rw [htotal]
    exact (hperm.map SizedField.width).sum_nat
  · rw [offsetOf?, get?_of_mem hascending he]
    rfl
  · have hnumbers : layout.entries.toList.map FieldLayout.number =
        (sortFields fields).map SizedField.number := by
      rw [← hsized, List.map_map]
      rfl
    rw [offsetOf?, Option.isSome_map, isSome_get?_iff hascending, hnumbers]
    exact (hperm.map SizedField.number).mem_iff

-- Sorted by different numbers, the same fields stand in the same order.
theorem sortFields_eq_of_perm {fields fields' : List SizedField} (hperm : fields'.Perm fields)
    (hnumbers : (fields.map SizedField.number).Nodup) :
    sortFields fields' = sortFields fields := by
  have hsorted : (sortFields fields').Perm (sortFields fields) :=
    (List.mergeSort_perm _ _).trans (hperm.trans (List.mergeSort_perm _ _).symm)
  have hnodup : ((sortFields fields).map SizedField.number).Nodup :=
    ((List.mergeSort_perm _ _).map _).nodup_iff.mpr hnumbers
  exact Bisect.eq_of_perm hsorted hnodup (sortFields_pairwise fields') (sortFields_pairwise fields)

theorem placeSorted_congr (message message' : String) {fields : List SizedField} {offset : Nat}
    {last : Option UInt16} {result : List FieldLayout × Nat}
    (h : placeSorted message fields offset last = .ok result) :
    placeSorted message' fields offset last = .ok result := by
  induction fields generalizing offset last result with
  | nil => exact h
  | cons f rest ih =>
    rw [placeSorted] at h ⊢
    split at h
    next => cases h
    next hlast =>
      rw [if_neg hlast]
      split at h
      next => cases h
      next hroom =>
        rw [if_neg hroom]
        split at h
        next hrest =>
          rw [ih hrest]
          exact h
        next => cases h

theorem compute_of_perm {message message' : String} {fields fields' : List SizedField}
    {layout : Layout} (h : compute message fields = .ok layout) (hperm : fields'.Perm fields) :
    compute message' fields' = .ok layout := by
  have hnumbers := ((compute_ok_iff message fields).mp ⟨layout, h⟩).1
  rw [compute] at h ⊢
  rw [sortFields_eq_of_perm hperm hnumbers]
  cases hplace : placeSorted message (sortFields fields) 0 none with
  | error e => rw [hplace] at h; cases h
  | ok result =>
    rw [hplace] at h
    rw [placeSorted_congr message message' hplace]
    exact h

/-! ## 3. Fields of any types -/

-- Fields that have room in a message have their exact widths.
theorem map_sized_eq_map_exact {fields : List Field} (h : ∀ f ∈ fields, f.type.Expressible)
    (hroom : (fields.map fun f => f.type.width).sum ≤ maxBits) :
    fields.map FieldOf.sized = fields.map FieldOf.exact := by
  refine List.map_congr_left fun f hf => ?_
  have hle : f.type.width ≤ (fields.map fun f => f.type.width).sum :=
    List.le_sum_of_mem (List.mem_map_of_mem hf)
  have hwidth := (h f hf).width_eq
  have hlt : maxBits < widthCeiling := by decide
  have hexact : f.type.width = f.type.exactWidth := by omega
  rw [FieldOf.sized, FieldOf.exact, hexact]

/-- Fields are placed exactly if their numbers differ and their exact widths have room in a message.
The layout places them all, and the fields in any other order, in a message of any name, have the
same layout. -/
theorem compute_exact (message : String) (fields : List Field)
    (h : ∀ f ∈ fields, f.type.Expressible) :
    ((∃ layout, compute message (fields.map FieldOf.sized) = .ok layout) ↔
      (fields.map FieldOf.number).Nodup ∧
        (fields.map fun f => f.type.exactWidth).sum ≤ maxBits) ∧
    ∀ layout, compute message (fields.map FieldOf.sized) = .ok layout →
      layout.Places (fields.map FieldOf.exact) ∧
      ∀ (message' : String) (fields' : List Field), fields'.Perm fields →
        compute message' (fields'.map FieldOf.sized) = .ok layout := by
  have hroom := WireType.room_iff fun f hf => (h f hf).width_eq
  have hiff := compute_ok_iff message (fields.map FieldOf.sized)
  simp only [List.map_map] at hiff
  refine ⟨hiff.trans (and_congr_right fun _ => hroom), fun layout hlayout => ⟨?_, ?_⟩⟩
  · rw [← map_sized_eq_map_exact h (hiff.mp ⟨layout, hlayout⟩).2]
    exact compute_places hlayout
  · exact fun message' fields' hperm => compute_of_perm hlayout (hperm.map FieldOf.sized)

/-- A message without fields. -/
def emptyMessage : MessageType :=
  ⟨"Empty", [], ⟨#[], 0⟩, .ofFields "Empty" []⟩

/-- Fields that fill the largest message to its last bit, one of them without any bits. -/
def edgeFields : List Field :=
  [⟨7, "pad", .array .bool 4294967282⟩, ⟨2, "mark", .message emptyMessage⟩, ⟨9, "level", .int 10⟩,
    ⟨1, "kind", .uint 3⟩]

theorem compute_exact_edge : (∀ f ∈ edgeFields, f.type.Expressible) ∧
    ∃ layout, compute "Edge" (edgeFields.map FieldOf.sized) = .ok layout ∧
      layout.Places (edgeFields.map FieldOf.exact) ∧ layout.totalBits = maxBits ∧
      compute "Reversed" (edgeFields.reverse.map FieldOf.sized) = .ok layout := by
  have hexpressible : ∀ f ∈ edgeFields, f.type.Expressible := by
    refine (WireType.allExpressible_iff _).mp ⟨trivial, ⟨trivial, ?_⟩, ?_, ?_, trivial⟩
    · cbv
    · change 10 < UInt8.size
      decide
    · change 3 < UInt8.size
      decide
  obtain ⟨hiff, hplaces⟩ := compute_exact "Edge" edgeFields hexpressible
  obtain ⟨layout, hlayout⟩ := hiff.mpr ⟨by decide, by decide⟩
  obtain ⟨hplaces, hperm⟩ := hplaces layout hlayout
  refine ⟨hexpressible, layout, hlayout, hplaces, ?_, hperm _ _ (List.reverse_perm _)⟩
  rw [hplaces.totalBits_eq]
  decide

-- One bit more is one too many.
example : compute "Edge" [⟨1, "kind", 3⟩, ⟨7, "pad", 4294967293⟩] =
    .error (.messageTooLarge "Edge" 4294967296) := by cbv

end Layout

end Bitwire
