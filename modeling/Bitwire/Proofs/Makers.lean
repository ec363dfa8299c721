import Bitwire.Proofs.MadeTypes
import Bitwire.Proofs.PatternNumbers

/-!
# What the makers accept and refuse

The makers of types look at one item after the other and stop at the first that is wrong.  What
they accept is said here of all items at once: widths in bounds, names and values and numbers that
are distinct, and room in a message.  What they refuse has the fault that their error names.
-/

namespace Bitwire

/-! ## 1. Names -/

namespace SchemaDef

theorem firstRepeated?_eq_none_iff {before names : List String} :
    firstRepeated? before names = none ↔ names.Nodup ∧ ∀ n ∈ names, n ∉ before := by
  induction names generalizing before with
  | nil => exact ⟨fun _ => ⟨List.nodup_nil, fun n hn => absurd hn List.not_mem_nil⟩, fun _ => rfl⟩
  | cons n rest ih =>
    rw [firstRepeated?, List.nodup_cons, List.forall_mem_cons]
    by_cases hn : n ∈ before
    · rw [if_pos (List.contains_iff_mem.mpr hn)]
      constructor
      · intro h
        cases h
      · intro h
        exact absurd hn h.2.1
    · rw [if_neg (fun h => hn (List.contains_iff_mem.mp h)), ih]
      constructor
      · intro ⟨hnodup, hrest⟩
        exact ⟨⟨fun hmem => hrest n hmem List.mem_cons_self, hnodup⟩, hn,
          fun m hm hmem => hrest m hm (List.mem_cons_of_mem _ hmem)⟩
      · intro ⟨⟨hnew, hnodup⟩, _, hrest⟩
        refine ⟨hnodup, fun m hm hmem => ?_⟩
        rcases List.mem_cons.mp hmem with rfl | hmem
        · exact hnew hm
        · exact hrest m hm hmem

-- The name that is found occurs twice.
theorem firstRepeated?_eq_some {before names : List String} {n : String}
    (h : firstRepeated? before names = some n) : 2 ≤ (before ++ names).count n := by
  induction names generalizing before with
  | nil => cases h
  | cons n' rest ih =>
    rw [firstRepeated?] at h
    split at h
    next hmem =>
      obtain rfl := Option.some.inj h
      have hbefore := List.count_pos_iff.mpr (List.contains_iff_mem.mp hmem)
      rw [List.count_append, List.count_cons_self]
      omega
    next => exact List.perm_middle.symm.count_eq n ▸ ih h

theorem checkDistinct_ok_iff (d : SchemaDef) : d.checkDistinct = .ok () ↔
    (d.definitions.map Definition.name ++ d.constants.map ConstantDef.name).Nodup := by
  have hnone := @firstRepeated?_eq_none_iff []
    (d.definitions.map Definition.name ++ d.constants.map ConstantDef.name)
  rw [checkDistinct]
  cases hfirst : firstRepeated? [] _ with
  | none => exact ⟨fun _ => (hnone.mp hfirst).1, fun _ => rfl⟩
  | some n =>
    constructor
    · intro h
      cases h
    · intro hnodup
      rw [hnone.mpr ⟨hnodup, fun _ _ => List.not_mem_nil⟩] at hfirst
      cases hfirst

theorem checkDistinct_error {d : SchemaDef} {e : SchemaError} (h : d.checkDistinct = .error e) :
    ∃ n, e = .duplicateDefinition n ∧
      2 ≤ (d.definitions.map Definition.name ++ d.constants.map ConstantDef.name).count n := by
  rw [checkDistinct] at h
  split at h
  next n hfirst =>
    have hcount := firstRepeated?_eq_some hfirst
    exact ⟨n, (Except.error.inj h).symm, hcount⟩
  next => cases h

end SchemaDef

/-! ## 2. Scalars and arrays -/

theorem checkBits_eq_ok {bits : Nat} (h : 1 ≤ bits ∧ bits ≤ 64) : checkBits bits = .ok () :=
  if_neg (by omega)

-- A maker that checks a width first refuses the width, or it goes on.
theorem bind_checkBits_error {bits : Nat} {α : Type} {next : Except SchemaError α} {e : SchemaError}
    (h : (checkBits bits >>= fun _ => next) = .error e) :
    (¬ (1 ≤ bits ∧ bits ≤ 64) ∧ e = .invalidBitWidth bits) ∨ next = .error e := by
  by_cases hbits : 1 ≤ bits ∧ bits ≤ 64
  · rw [checkBits_eq_ok hbits] at h
    exact .inr h
  · rw [checkBits, if_pos (by omega)] at h
    exact .inl ⟨hbits, (Except.error.inj h).symm⟩

namespace WireType

theorem makeInt_error {bits : Nat} {e : SchemaError} (h : makeInt bits = .error e) :
    ¬ (1 ≤ bits ∧ bits ≤ 64) ∧ e = .invalidBitWidth bits :=
  (bind_checkBits_error h).resolve_right fun hok => by cases hok

theorem makeUint_error {bits : Nat} {e : SchemaError} (h : makeUint bits = .error e) :
    ¬ (1 ≤ bits ∧ bits ≤ 64) ∧ e = .invalidBitWidth bits :=
  (bind_checkBits_error h).resolve_right fun hok => by cases hok

theorem makeArray_error {element : WireType} {capacity : Nat} {e : SchemaError}
    (h : makeArray element capacity = .error e) : capacity = 0 ∧ e = .invalidArrayCapacity := by
  rw [makeArray] at h
  split at h
  next hzero => exact ⟨hzero, (Except.error.inj h).symm⟩
  next => cases h

theorem makeArray_ok {element t : WireType} {capacity : Nat}
    (h : makeArray element capacity = .ok t) : 1 ≤ capacity ∧ t = .array element capacity := by
  rw [makeArray] at h
  split at h
  next => cases h
  next hne => exact ⟨Nat.one_le_iff_ne_zero.mpr hne, (Except.ok.inj h).symm⟩

theorem makeArray_eq_ok {element : WireType} {capacity : Nat} (h : 1 ≤ capacity) :
    makeArray element capacity = .ok (.array element capacity) :=
  if_neg (by omega)

end WireType

/-! ## 3. Enums -/

namespace EnumType

theorem checkValues_cons_ok_iff {name : String} {bits : Nat} {before rest : List EnumValue}
    {f : EnumValue} : checkValues name bits before (f :: rest) = .ok () ↔
      f.value.toNat < 2 ^ bits ∧ (∀ b ∈ before, b.name ≠ f.name ∧ b.value ≠ f.value) ∧
      checkValues name bits (f :: before) rest = .ok () := by
  have hname : before.any (·.name == f.name) = true ↔ ¬ ∀ b ∈ before, b.name ≠ f.name := by simp
  have hvalue : before.any (·.value == f.value) = true ↔ ¬ ∀ b ∈ before, b.value ≠ f.value := by
    simp
  rw [checkValues, forall₂_and, ← Pattern.fitsUnsigned_iff]
  simp only [Bool.not_eq_true', ← Bool.not_eq_true, hname, hvalue, ite_not]
  split
  next hfits =>
    split
    next hnames =>
      split
      next hvalues => exact ⟨fun h => ⟨hfits, ⟨hnames, hvalues⟩, h⟩, fun h => h.2.2⟩
      next hvalues => simp only [hvalues, reduceCtorEq, and_false, false_and]
    next hnames => simp only [hnames, reduceCtorEq, and_false, false_and]
  next hfits => simp only [hfits, reduceCtorEq, false_and]

theorem checkValues_ok_iff {name : String} {bits : Nat} {before fields : List EnumValue} :
    checkValues name bits before fields = .ok () ↔
      (∀ f ∈ fields, f.value.toNat < 2 ^ bits) ∧
      (∀ b ∈ before, ∀ f ∈ fields, b.name ≠ f.name ∧ b.value ≠ f.value) ∧
      fields.Pairwise fun f g => f.name ≠ g.name ∧ f.value ≠ g.value := by
  induction fields generalizing before with
  | nil => simp [checkValues]
  | cons f rest ih =>
    rw [checkValues_cons_ok_iff, ih, List.pairwise_cons]
    simp only [List.forall_mem_cons, forall₂_and]
    -- the value moves from the values that are checked to those that stand before
    constructor
    · rintro ⟨hfits, hnew, hrest, ⟨hf, hbefore⟩, hpairwise⟩
      exact ⟨⟨hfits, hrest⟩, ⟨hnew, hbefore⟩, hf, hpairwise⟩
    · rintro ⟨⟨hfits, hrest⟩, ⟨hnew, hbefore⟩, hf, hpairwise⟩
      exact ⟨hfits, hnew, hrest, ⟨hf, hbefore⟩, hpairwise⟩

/-- What is wrong with an enum, by the error that says so. -/
inductive Fault (name : String) (bits : Nat) (fields : List EnumValue) : SchemaError → Prop
  | width : ¬ (1 ≤ bits ∧ bits ≤ 64) → Fault name bits fields (.invalidBitWidth bits)
  | overflow {f : EnumValue} : f ∈ fields → 2 ^ bits ≤ f.value.toNat →
      Fault name bits fields (.enumValueOverflow name f.value bits)
  | repeatedName {n : String} : 2 ≤ (fields.map EnumValue.name).count n →
      Fault name bits fields (.duplicateEnumField name n)
  | repeatedValue {v : UInt64} : 2 ≤ (fields.map EnumValue.value).count v →
      Fault name bits fields (.duplicateEnumValue name v)

theorem Fault.of_perm {name : String} {bits : Nat} {fields fields' : List EnumValue}
    {e : SchemaError} (h : Fault name bits fields e) (hperm : fields.Perm fields') :
    Fault name bits fields' e := by
  cases h with
  | width hbits => exact .width hbits
  | overflow hf hlarge => exact .overflow (hperm.mem_iff.mp hf) hlarge
  | repeatedName hn =>
    rw [(hperm.map EnumValue.name).count_eq] at hn
    exact .repeatedName hn
  | repeatedValue hv =>
    rw [(hperm.map EnumValue.value).count_eq] at hv
    exact .repeatedValue hv

-- Something that stands before a value and in the values before it stands there twice.
theorem two_le_count_of_any {α : Type} [DecidableEq α] {g : EnumValue → α} {f : EnumValue}
    {before : List EnumValue} (rest : List EnumValue)
    (h : before.any (fun b => g b == g f) = true) : 2 ≤ ((before ++ f :: rest).map g).count (g f) := by
  obtain ⟨b, hb, heq⟩ := List.any_eq_true.mp h
  have hsame : g b = g f := eq_of_beq heq
  have hmem : g f ∈ before.map g := List.mem_map.mpr ⟨b, hb, hsame⟩
  have hbefore := List.count_pos_iff.mpr hmem
  rw [List.map_append, List.map_cons, List.count_append, List.count_cons_self]
  omega

theorem checkValues_error {name : String} {bits : Nat} {before fields : List EnumValue}
    {e : SchemaError} (h : checkValues name bits before fields = .error e) :
    Fault name bits (before ++ fields) e := by
  induction fields generalizing before with
  | nil => cases h
  | cons f rest ih =>
    rw [checkValues] at h
    split at h
    next hfits =>
      obtain rfl := Except.error.inj h
      rw [Bool.not_eq_true', ← Bool.not_eq_true, Pattern.fitsUnsigned_iff] at hfits
      exact .overflow (by simp) (Nat.le_of_not_lt hfits)
    next =>
      split at h
      next hname =>
        obtain rfl := Except.error.inj h
        exact .repeatedName (two_le_count_of_any rest hname)
      next =>
        split at h
        next hvalue =>
          obtain rfl := Except.error.inj h
          exact .repeatedValue (two_le_count_of_any rest hvalue)
        next => exact (ih h).of_perm List.perm_middle.symm

theorem make_error {name : String} {bits : Nat} {extensible : Bool} {fields : List EnumValue}
    {e : SchemaError} (h : make name bits extensible fields = .error e) :
    Fault name bits fields e := by
  rcases bind_checkBits_error h with ⟨hbits, rfl⟩ | h
  · exact .width hbits
  · cases hvalues : checkValues name bits [] fields with
    | ok =>
      rw [hvalues] at h
      cases h
    | error e' =>
      rw [hvalues] at h
      obtain rfl := Except.error.inj h
      exact checkValues_error hvalues

/-- An enum is made of a width in bounds and distinct values that fit in it. -/
theorem make_ok_iff {name : String} {bits : Nat} {extensible : Bool} {fields : List EnumValue} :
    make name bits extensible fields = .ok ⟨name, bits, extensible, fields⟩ ↔
      (1 ≤ bits ∧ bits ≤ 64) ∧ (fields.map EnumValue.name).Nodup ∧
      (fields.map EnumValue.value).Nodup ∧ ∀ f ∈ fields, f.value.toNat < 2 ^ bits := by
  constructor
  · intro h
    obtain ⟨hbits, hrest⟩ := WireType.bind_checkBits_ok h
    cases hvalues : checkValues name bits [] fields with
    | error e =>
      rw [hvalues] at hrest
      cases hrest
    | ok =>
      obtain ⟨hfits, -, hpairwise⟩ := checkValues_ok_iff.mp hvalues
      obtain ⟨hnames, hdistinct⟩ := List.pairwise_and_iff.mp hpairwise
      exact ⟨WireType.checkBits_ok hbits, List.pairwise_map.mpr hnames,
        List.pairwise_map.mpr hdistinct, hfits⟩
  · intro ⟨hbits, hnames, hdistinct, hfits⟩
    have hvalues : checkValues name bits [] fields = .ok () :=
      checkValues_ok_iff.mpr ⟨hfits, fun b hb => absurd hb List.not_mem_nil,
        (List.pairwise_map.mp hnames).and (List.pairwise_map.mp hdistinct)⟩
    rw [make, checkBits_eq_ok hbits, hvalues]
    rfl

end EnumType

/-! ## 4. Messages -/

namespace Layout

/-- What is wrong with the places of fields, by the error that says so.  The fields that have room
come before the first that has none, in the order of their numbers. -/
inductive Fault (message : String) (fields : List SizedField) : SchemaError → Prop
  | repeatedNumber {number : UInt16} : 2 ≤ (fields.map SizedField.number).count number →
      Fault message fields (.duplicateFieldNumber message number)
  | noRoom {front back : List SizedField} {f : SizedField} :
      sortFields fields = front ++ f :: back → (front.map SizedField.width).sum ≤ maxBits →
      maxBits < (front.map SizedField.width).sum + f.width →
      Fault message fields (.messageTooLarge message
        (min ((front.map SizedField.width).sum + f.width) widthCeiling))

-- Fields that do not all have room are too wide together.
theorem lt_sum_of_sortFields_eq {fields front back : List SizedField} {f : SizedField}
    (hsplit : sortFields fields = front ++ f :: back)
    (hf : maxBits < (front.map SizedField.width).sum + f.width) :
    maxBits < (fields.map SizedField.width).sum := by
  have hperm : (sortFields fields).Perm fields := List.mergeSort_perm _ _
  have hsum := (hperm.map SizedField.width).sum_nat
  rw [hsplit, List.map_append, List.map_cons, List.sum_append, List.sum_cons] at hsum
  omega

theorem placeSorted_error {message : String} {fields : List SizedField} {offset : Nat}
    {last : Option UInt16} {e : SchemaError} (hoffset : offset ≤ maxBits)
    (h : placeSorted message fields offset last = .error e) :
    (∃ number, e = .duplicateFieldNumber message number ∧
      2 ≤ (last.toList ++ fields.map SizedField.number).count number) ∨
    ∃ front f back, fields = front ++ f :: back ∧
      offset + (front.map SizedField.width).sum ≤ maxBits ∧
      maxBits < offset + (front.map SizedField.width).sum + f.width ∧
      e = .messageTooLarge message
        (min (offset + (front.map SizedField.width).sum + f.width) widthCeiling) := by
  induction fields generalizing offset last with
  | nil => cases h
  | cons f rest ih =>
    rw [placeSorted] at h
    split at h
    next hlast =>
      refine .inl ⟨f.number, (Except.error.inj h).symm, ?_⟩
      simp [hlast]
    next =>
      split at h
      next hlarge => exact .inr ⟨[], f, rest, rfl, hoffset, by omega, (Except.error.inj h).symm⟩
      next hroom =>
        -- below the largest message no width is cut off
        have hstop : min (offset + f.width) widthCeiling = offset + f.width := by
          have hlt : maxBits < widthCeiling := by decide
          omega
        rw [hstop] at h hroom
        split at h
        next => cases h
        next e' hrest =>
          obtain rfl := Except.error.inj h
          rcases ih (by omega) hrest with ⟨number, rfl, hcount⟩ | ⟨front, g, back, rfl, hfront, hg, rfl⟩
          · have hsub := List.sublist_append_right last.toList ((f :: rest).map SizedField.number)
            exact .inl ⟨number, rfl, hcount.trans (hsub.count_le number)⟩
          · refine .inr ⟨f :: front, g, back, rfl, ?_, ?_, ?_⟩
            all_goals rw [List.map_cons, List.sum_cons, ← Nat.add_assoc]
            · exact hfront
            · exact hg

theorem compute_error {message : String} {fields : List SizedField} {e : SchemaError}
    (h : compute message fields = .error e) : Fault message fields e := by
  have hperm : (sortFields fields).Perm fields := List.mergeSort_perm _ _
  rw [compute] at h
  cases hplace : placeSorted message (sortFields fields) 0 none with
  | ok result =>
    rw [hplace] at h
    cases h
  | error e' =>
    rw [hplace] at h
    obtain rfl := Except.error.inj h
    rcases placeSorted_error (Nat.zero_le _) hplace with
      ⟨number, rfl, hcount⟩ | ⟨front, f, back, hsplit, hfront, hf, rfl⟩
    · exact .repeatedNumber ((hperm.map _).count_eq number ▸ hcount)
    · rw [Nat.zero_add] at hfront hf ⊢
      exact .noRoom hsplit hfront hf

theorem compute_eq_ok {message : String} {fields : List SizedField}
    (hnumbers : (fields.map SizedField.number).Nodup)
    (hroom : (fields.map SizedField.width).sum ≤ maxBits) :
    ∃ layout, compute message fields = .ok layout := by
  cases h : compute message fields with
  | ok layout => exact ⟨layout, rfl⟩
  | error e =>
    cases compute_error h with
    | repeatedNumber hcount =>
      exact absurd hnumbers (List.duplicate_iff_two_le_count.mpr hcount).not_nodup
    | noRoom hsplit _ hf => exact absurd (lt_sum_of_sortFields_eq hsplit hf) (Nat.not_lt.mpr hroom)

end Layout

namespace MessageType

-- Names of fields are checked as all names are.
theorem checkNames_eq (message : String) (before : List String) (fields : List Field) :
    checkNames message before fields =
      (SchemaDef.firstRepeated? before (fields.map FieldOf.name)).elim (.ok ())
        fun n => .error (.duplicateFieldName message n) := by
  induction fields generalizing before with
  | nil => rfl
  | cons f rest ih =>
    rw [checkNames, List.map_cons, SchemaDef.firstRepeated?]
    split
    next => rfl
    next => exact ih _

theorem make_error {name : String} {fields : List Field} {e : SchemaError}
    (h : make name fields = .error e) :
    (∃ n, e = .duplicateFieldName name n ∧ 2 ≤ (fields.map FieldOf.name).count n) ∨
      Layout.Fault name (fields.map FieldOf.sized) e := by
  rw [make, checkNames_eq] at h
  cases hfirst : SchemaDef.firstRepeated? [] (fields.map FieldOf.name) with
  | some n =>
    rw [hfirst] at h
    exact .inl ⟨n, (Except.error.inj h).symm, SchemaDef.firstRepeated?_eq_some hfirst⟩
  | none =>
    rw [hfirst] at h
    cases hlayout : Layout.compute name (fields.map FieldOf.sized) with
    | ok layout =>
      rw [hlayout] at h
      cases h
    | error e' =>
      rw [hlayout] at h
      obtain rfl := Except.error.inj h
      exact .inr (Layout.compute_error hlayout)

/-- A message is made of fields with distinct names and numbers that have room in a message. -/
theorem make_eq_ok {name : String} {fields : List Field}
    (hnames : (fields.map FieldOf.name).Nodup) (hnumbers : (fields.map FieldOf.number).Nodup)
    (hroom : (fields.map fun f => f.type.width).sum ≤ Layout.maxBits) :
    ∃ m, make name fields = .ok m := by
  obtain ⟨layout, hlayout⟩ := @Layout.compute_eq_ok name (fields.map FieldOf.sized)
    (by rwa [List.map_map]) (by rwa [List.map_map])
  have hfirst : SchemaDef.firstRepeated? [] (fields.map FieldOf.name) = none :=
    SchemaDef.firstRepeated?_eq_none_iff.mpr ⟨hnames, fun _ _ => List.not_mem_nil⟩
  refine ⟨⟨name, fields, layout, .ofFields name (placedFormats fields layout.entries.toList)⟩, ?_⟩
  rw [make, checkNames_eq, hfirst]
  change (Layout.compute name _ >>= _) = _
  rw [hlayout]
  rfl

namespace Consistent

variable {m : MessageType} (h : m.Consistent)

include h

theorem numbers_nodup : (m.fields.map FieldOf.number).Nodup :=
  ((List.mergeSort_perm m.fields _).map _).nodup_iff.mp (nodup_of_ascending h.ascending)

-- The declared order does not change the total.
theorem totalBits_eq_sum : m.layout.totalBits = (m.fields.map fun f => f.type.width).sum := by
  rw [h.totalBits_eq]
  exact ((List.mergeSort_perm m.fields _).map fun f => f.type.width).sum_nat

end Consistent

end MessageType

end Bitwire
