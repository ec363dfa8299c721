import Bitwire.Proofs.Leaves
import Bitwire.Proofs.Placement
import Bitwire.Schema.Compile

/-!
# Types that were made

A compiled schema holds only types that came from their makers, and so do all the types inside
them.  The formats of such types are sound and proper as long as they are not too wide for a
message, and every type of a field is not.
-/

namespace Bitwire

namespace WireType

/-- Whether values of a type have bits of their own. -/
def isScalar : WireType → Bool
  | .aliased .. => false
  | .array .. => false
  | .message _ => false
  | _ => true

/-! ## 1. Induction -/

/-- Induction over types: a message holds the types of its fields. -/
@[elab_as_elim]
theorem induct {motive : WireType → Prop}
    (scalar : ∀ t : WireType, t.isScalar = true → motive t)
    (aliased : ∀ (name : String) (target : WireType), motive target →
      motive (.aliased name target))
    (array : ∀ (element : WireType) (capacity : Nat), motive element →
      motive (.array element capacity))
    (message : ∀ m : MessageType, (∀ f ∈ m.fields, motive f.type) → motive (.message m))
    (t : WireType) : motive t := by
  refine @WireType.rec motive (fun m => ∀ f ∈ m.fields, motive f.type)
    (fun fields => ∀ f ∈ fields, motive f.type) (fun f => motive f.type)
    (scalar _ rfl) (fun _ => scalar _ rfl) (fun _ => scalar _ rfl)
    (fun name target ih => aliased name target ih) (fun _ => scalar _ rfl)
    (fun element capacity ih => array element capacity ih) (fun m ih => message m ih)
    (fun _ _ _ _ ih => ih) ?_ (fun f rest ihf ihrest => ?_) (fun _ _ _ ih => ih) t
  · exact fun f hf => absurd hf List.not_mem_nil
  · rw [List.forall_mem_cons]
    exact ⟨ihf, ihrest⟩

/-! ## 2. Made types -/

mutual

/-- Types that came from their makers, together with all types inside them. -/
def Made : WireType → Prop
  | .bool => True
  | .int bits => makeInt bits = .ok (.int bits)
  | .uint bits => makeUint bits = .ok (.uint bits)
  | .aliased _ target => target.Made
  | .enum e => EnumType.make e.name e.bits e.extensible e.fields = .ok e
  | .array element capacity => element.Made ∧ makeArray element capacity = .ok (.array element capacity)
  | .message ⟨name, fields, layout, format⟩ =>
    AllMade fields ∧ MessageType.make name fields = .ok ⟨name, fields, layout, format⟩

/-- Fields whose types were made. -/
def AllMade : List Field → Prop
  | [] => True
  | ⟨_, _, type⟩ :: rest => type.Made ∧ AllMade rest

end

theorem allMade_iff (fields : List Field) : AllMade fields ↔ ∀ f ∈ fields, f.type.Made := by
  induction fields with
  | nil => simp [AllMade]
  | cons f rest ih => rw [List.forall_mem_cons, ← ih, AllMade]

theorem checkBits_ok {bits : Nat} (h : checkBits bits = .ok ()) : 1 ≤ bits ∧ bits ≤ 64 := by
  rw [checkBits] at h
  split at h
  next => exact nomatch h
  next hin => omega

theorem bind_checkBits_ok {bits : Nat} {α : Type} {next : Except SchemaError α} {a : α}
    (h : (checkBits bits >>= fun _ => next) = .ok a) : checkBits bits = .ok () ∧ next = .ok a := by
  cases hbits : checkBits bits with
  | ok => rw [hbits] at h; exact ⟨rfl, h⟩
  | error e => rw [hbits] at h; exact nomatch h

theorem enum_make_ok {name : String} {bits : Nat} {extensible : Bool} {fields : List EnumValue}
    {e : EnumType} (h : EnumType.make name bits extensible fields = .ok e) :
    e = ⟨name, bits, extensible, fields⟩ := by
  have hrest := (bind_checkBits_ok h).2
  cases hvalues : EnumType.checkValues name bits [] fields with
  | ok => rw [hvalues] at hrest; exact (Except.ok.inj hrest).symm
  | error e => rw [hvalues] at hrest; exact nomatch hrest

end WireType

/-- Message types that were made, together with all types inside them. -/
def MessageType.Made (m : MessageType) : Prop :=
  (WireType.message m).Made

namespace MessageType.Made

variable {m : MessageType} (h : m.Made)

include h

theorem field {f : Field} (hf : f ∈ m.fields) : f.type.Made :=
  (WireType.allMade_iff _).mp h.1 f hf

theorem consistent : m.Consistent :=
  (make_ok h.2).2.2

theorem sized_le {f : Field} (hf : f ∈ m.fields) : f.type.width ≤ Format.maxWidth := by
  have hmem : f.type.width ∈ m.sortedFields.map fun f => f.type.width :=
    List.mem_map_of_mem (mem_sortedFields.mpr hf)
  obtain ⟨front, back, hsplit⟩ := List.append_of_mem hmem
  have htotal := h.consistent.totalBits_eq
  rw [hsplit, List.sum_append, List.sum_cons] at htotal
  have hle := h.consistent.totalBits_le
  rw [Layout.maxBits] at hle
  rw [Format.maxWidth]
  omega

end MessageType.Made

/-! ## 3. Formats of message types -/

namespace MessageType

-- The first bit past fields that follow each other.
theorem stop_placedFields {fields : List Field}
    (hwidth : ∀ f ∈ fields, f.type.format.width = f.type.width) (offset : Nat) :
    ((placedFields offset fields).getLast?.map PlacedField.stop).getD offset =
      offset + (fields.map fun f => f.type.width).sum := by
  induction fields generalizing offset with
  | nil => rfl
  | cons f rest ih =>
    obtain ⟨hf, hrest⟩ := List.forall_mem_cons.mp hwidth
    have htail := ih hrest (offset + f.type.width)
    rw [List.map_cons, List.sum_cons, ← Nat.add_assoc, ← htail, placedFields]
    cases rest with
    | nil =>
      change offset + f.type.format.width = offset + f.type.width
      rw [hf]
    | cons g rest => rw [placedFields, List.getLast?_cons_cons]; rfl

theorem isChain_placedFields {fields : List Field}
    (hwidth : ∀ f ∈ fields, f.type.format.width = f.type.width) (offset : Nat) :
    (placedFields offset fields).IsChain fun f g => f.stop = g.offset := by
  induction fields generalizing offset with
  | nil => exact List.IsChain.nil
  | cons f rest ih =>
    obtain ⟨hf, hrest⟩ := List.forall_mem_cons.mp hwidth
    rw [placedFields, List.isChain_cons]
    refine ⟨fun g hg => ?_, ih hrest _⟩
    cases rest with
    | nil => cases hg
    | cons g' rest =>
      obtain rfl := Option.some.inj hg
      change offset + f.type.format.width = offset + f.type.width
      rw [hf]

theorem map_placedFields {β : Type} {g : FieldFormat → β} (e : Field → β)
    (h : ∀ (f : Field) (offset : Nat), g ⟨f.number, f.name, offset, f.type.format⟩ = e f)
    (offset : Nat) (fields : List Field) :
    (placedFields offset fields).map g = fields.map e := by
  induction fields generalizing offset with
  | nil => rfl
  | cons f rest ih => rw [placedFields, List.map_cons, List.map_cons, h, ih]

theorem mem_placedFields {p : FieldFormat} {offset : Nat} {fields : List Field}
    (h : p ∈ placedFields offset fields) : ∃ f ∈ fields,
      p.number = f.number ∧ p.name = f.name ∧ p.format = f.type.format := by
  induction fields generalizing offset with
  | nil => exact absurd h List.not_mem_nil
  | cons f rest ih =>
    rcases List.mem_cons.mp h with rfl | h
    · exact ⟨f, List.mem_cons_self, rfl, rfl, rfl⟩
    · obtain ⟨f', hf', hp⟩ := ih h
      exact ⟨f', List.mem_cons_of_mem _ hf', hp⟩

end MessageType

namespace MessageType.Consistent

variable {m : MessageType} (h : m.Consistent)

include h

theorem ascending_placed :
    (placedFields 0 m.sortedFields).Pairwise fun f g => f.number < g.number := by
  have hmap := map_placedFields (g := PlacedField.number) FieldOf.number
    (fun _ _ => rfl) 0 m.sortedFields
  have hnumbers := List.pairwise_map.mpr h.ascending
  rw [← hmap] at hnumbers
  exact List.pairwise_map.mp hnumbers

-- The fields of the format are those of the type, by number and one after the other.
theorem format_fields : m.format.fields.toList = placedFields 0 m.sortedFields := by
  rw [h.format_eq]
  exact List.mergeSort_of_pairwise (h.ascending_placed.imp fun hlt =>
    decide_eq_true (UInt16.le_of_lt hlt))

-- The format of a type is as wide as its layout says.
theorem format_totalBits (hwidth : ∀ f ∈ m.fields, f.type.format.width = f.type.width) :
    m.format.totalBits = m.layout.totalBits := by
  have hstop := stop_placedFields (fun f hf => hwidth f (mem_sortedFields.mp hf)) 0
  have hle := h.totalBits_le
  have hsorted := List.mergeSort_of_pairwise (h.ascending_placed.imp fun hlt =>
    decide_eq_true (UInt16.le_of_lt hlt))
  have htotal : m.format.totalBits =
      min (((placedFields 0 m.sortedFields).getLast?.map PlacedField.stop).getD 0)
        Format.maxWidth := by
    rw [h.format_eq]
    change min (((placedFields 0 m.sortedFields).mergeSort _).getLast?.map _ |>.getD 0) _ = _
    rw [hsorted]
  rw [htotal, hstop, Nat.zero_add, ← h.totalBits_eq]
  exact Nat.min_eq_left hle

/-- The format of a type is sound and proper if those of its fields are. -/
theorem format_ok (hfields : ∀ f ∈ m.fields,
    f.type.format.Sound ∧ f.type.format.Proper ∧ f.type.format.width = f.type.width) :
    m.format.Sound ∧ m.format.Proper ∧ m.format.totalBits = m.layout.totalBits := by
  have htotal := h.format_totalBits fun f hf => (hfields f hf).2.2
  have hwidth : ∀ f ∈ m.sortedFields, f.type.format.width = f.type.width :=
    fun f hf => (hfields f (mem_sortedFields.mp hf)).2.2
  have hplaced : ∀ p ∈ placedFields 0 m.sortedFields, p.format.Sound ∧ p.format.Proper := by
    intro p hp
    obtain ⟨f, hf, -, -, hformat⟩ := mem_placedFields hp
    obtain ⟨hsound, hproper, -⟩ := hfields f (mem_sortedFields.mp hf)
    rw [hformat]
    exact ⟨hsound, hproper⟩
  have hnames : ((placedFields 0 m.sortedFields).map PlacedField.name).Nodup := by
    rw [map_placedFields FieldOf.name fun _ _ => rfl]
    exact ((List.mergeSort_perm m.fields _).map FieldOf.name).nodup_iff.mpr h.names_nodup
  have hfirst : ∀ p ∈ (placedFields 0 m.sortedFields).head?, p.offset = 0 := by
    intro p hp
    cases hsorted : m.sortedFields with
    | nil => rw [hsorted] at hp; exact nomatch hp
    | cons f rest =>
      rw [hsorted] at hp
      obtain rfl := Option.some.inj hp
      rfl
  -- the fields of the format are the placed ones
  rw [← h.format_fields] at hplaced hnames hfirst
  refine ⟨?_, ?_, htotal⟩
  · apply MessageFormat.Sound.intro (fun p hp => (hplaced p hp).1)
    · rw [h.format_fields]
      exact h.ascending_placed
    · rw [h.format_fields]
      exact isChain_placedFields hwidth 0
    · rw [h.format_fields, stop_placedFields hwidth 0, Nat.zero_add, htotal]
      exact h.totalBits_eq
    · rw [htotal]
      exact h.totalBits_le
  · exact MessageFormat.Proper.intro (fun p hp => (hplaced p hp).2) hnames hfirst

end MessageType.Consistent

/-! ## 4. Formats of made types -/

namespace WireType

theorem scalar_format {t : WireType} (hs : t.isScalar = true) :
    t.format.isScalar = true ∧ t.format.width = t.width := by
  cases t <;> first | exact ⟨rfl, rfl⟩ | exact absurd hs Bool.false_ne_true

theorem Made.scalar_sound {t : WireType} (h : t.Made) (hs : t.isScalar = true) :
    t.format.Sound ∧ t.format.Proper := by
  cases t with
  | bool => exact ⟨trivial, trivial⟩
  | int bits => exact ⟨checkBits_ok (bind_checkBits_ok h).1, trivial⟩
  | uint bits => exact ⟨checkBits_ok (bind_checkBits_ok h).1, trivial⟩
  | enum e => exact ⟨checkBits_ok (bind_checkBits_ok h).1, trivial⟩
  | aliased | array | message => exact absurd hs Bool.false_ne_true

-- The elements of an array that was made and has room in a message.
theorem Made.element {element : WireType} {capacity : Nat} (h : (array element capacity).Made)
    (hw : (array element capacity).width ≤ Format.maxWidth) :
    element.Made ∧ element.width ≤ Format.maxWidth ∧
      element.width * capacity ≤ Format.maxWidth := by
  have hcapacity : capacity ≠ 0 := by
    have hmake := h.2
    rw [makeArray] at hmake
    split at hmake
    next => exact nomatch hmake
    next hne => exact hne
  -- a message has no room for the width at which arrays are cut off
  have hlt : Format.maxWidth < Layout.widthCeiling := by decide
  change min (element.width * capacity) Layout.widthCeiling ≤ Format.maxWidth at hw
  have hone : element.width ≤ element.width * capacity :=
    Nat.le_mul_of_pos_right _ (Nat.pos_of_ne_zero hcapacity)
  exact ⟨h.1, by omega, by omega⟩

/-- The format of a made type that a message has room for. -/
theorem Made.format {t : WireType} (h : t.Made) (hw : t.width ≤ Format.maxWidth) :
    t.format.Sound ∧ t.format.Proper ∧ t.format.width = t.width := by
  induction t using WireType.induct with
  | scalar t hs => exact ⟨(h.scalar_sound hs).1, (h.scalar_sound hs).2, (scalar_format hs).2⟩
  | aliased name target ih => exact ih h hw
  | array element capacity ih =>
    obtain ⟨helement, hsize, hprod⟩ := h.element hw
    obtain ⟨hsound, hproper, hwidth⟩ := ih helement hsize
    have hlt : Format.maxWidth < Layout.widthCeiling := by decide
    refine ⟨⟨hsound, by rwa [hwidth]⟩, hproper, ?_⟩
    change min (element.format.width * capacity) Format.maxWidth =
      min (element.width * capacity) Layout.widthCeiling
    rw [hwidth]
    omega
  | message m ih =>
    have hm : m.Made := h
    exact hm.consistent.format_ok fun f hf => ih f hf (hm.field hf) (hm.sized_le hf)

end WireType

end Bitwire
